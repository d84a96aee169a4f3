import VisualScript.Compile.Unit
import VisualScript.Proofs.Working.Blocks

namespace VisualScript

namespace Job

variable {jobs : List Job} {i : Nat}

/-- What becomes of a statement of a function with the given role once the offsets of events are known. -/
def patched (jobs : List Job) (role : FunctionRole) (s : Statement) : Statement :=
  match role, eventOffsets jobs with
  | .eventStub, some offsets => patchStatement offsets s
  | _, _ => s

theorem patchAll_getElem? (jobs : List Job) (i : Nat) :
    (patchAll jobs)[i]? = (jobs[i]?).map fun j =>
      { j with body := j.body.map fun b => { b with statements := b.statements.map (patched jobs
        j.work.role) } } := by
  have hnone (j : Job) (h : patched jobs j.work.role = id) :
      { j with body := j.body.map fun b => { b with statements := b.statements.map (patched jobs
        j.work.role) } } = j := by
    simp [h]
  unfold patchAll
  split
  · next offsets ho =>
      rw [List.getElem?_map]
      refine congrArg (fun f => (jobs[i]?).map f) (funext fun j => ?_)
      unfold patch
      split
      · next hrole =>
          have hp : patched jobs j.work.role = patchStatement offsets := funext fun s => by
            simp [patched, ho, hrole]
          rw [hp]
      · next hrole => exact (hnone j (funext fun s => by unfold patched; split <;> simp_all)).symm
  · next ho =>
      have hsame (j : Job) := hnone j (funext fun s => by simp [patched, ho])
      simp [hsame]

theorem map_patchAll {β : Type} {p : Job → β} (hp : ∀ (j : Job) body, p { j with body } = p j)
    (jobs : List Job) :
    (patchAll jobs).map p = jobs.map p := by
  apply List.ext_getElem?
  intro i
  rw [List.getElem?_map, List.getElem?_map, patchAll_getElem?, Option.map_map]
  exact congrArg (fun f => (jobs[i]?).map f) (funext fun j => hp j _)

end Job

namespace Build

variable {r : Registry} {env : Env} {w : Working} {b : Body}

theorem body_eq_some (h : (body r env w).1 = some b) : ∃ s, w.schedule r = .ok s ∧
    b = Body.link (blocks r env s w).1 fun id => (blocks r env s w).2.provenance.get? id := by
  cases hs : w.schedule r with
  | error e =>
      rw [body, bind_apply] at h
      simp only [get_apply, hs] at h
      cases h
  | ok s =>
      refine ⟨s, rfl, ?_⟩
      rw [body, bind_apply] at h
      simp only [get_apply, hs, bind_apply, pure_apply] at h
      exact (Option.some.inj (Option.ite_none_left_eq_some.mp h).2).symm

theorem body_eq {s : Schedule} (hs : w.schedule r = .ok s) : body r env w =
    (if (blocks r env s w).2.hasErrors then none
      else some (Body.link (blocks r env s w).1 fun id => (blocks r env s w).2.provenance.get? id),
      (blocks r env s w).2) := by
  rw [body, bind_apply]
  simp only [get_apply, hs]
  rfl

theorem body_respects (env : Env) : Respects Working.Grows (body .standard env) := by
  refine .bind .get fun w => ?_
  split
  · exact .bind (report_respects _ _ _) fun _ => .pure _
  · exact .bind (.mapM (block_respects env _) _) fun _ => .bind .get fun _ => .pure _

end Build

theorem Job.compileBody_eq (r : Registry) (env : Env) {j : Job} (h : j.abandoned = false) :
    j.compileBody r env =
    { j with
      symbols := .ofTerms j.work.terms j.signature (j.promotesLocals env)
      body := (Build.body r env j.work).1
      work := (Build.body r env j.work).2
      abandoned := (Build.body r env j.work).1.isNone } := by
  rw [compileBody, h]
  rfl

theorem Job.compileBody_linked {r : Registry} {env : Env} {j : Job}
    (h : (j.compileBody r env).abandoned = false) :
    j.abandoned = false ∧ ∃ s, j.work.schedule r = .ok s ∧
      let emitted := Build.blocks r env s j.work
      (j.compileBody r env).body = some (.link emitted.1 fun id => emitted.2.provenance.get? id) := by
  cases hab : j.abandoned with
  | true =>
      rw [compileBody, hab] at h
      cases h
  | false =>
      rw [compileBody_eq r env hab] at h ⊢
      obtain ⟨b, hb⟩ := Option.isSome_iff_exists.mp (Option.isNone_eq_false_iff.mp h)
      obtain ⟨s, hs, rfl⟩ := Build.body_eq_some hb
      exact ⟨rfl, s, hs, hb⟩

theorem Job.compileBody_live {env : Env} {j : Job} (h : (j.compileBody .standard env).abandoned = false) :
    j.abandoned = false ∧ (j.compileBody .standard env).work.role = j.work.role ∧
      (j.compileBody .standard env).symbols = .ofTerms j.work.terms j.signature (j.promotesLocals env) ∧
      ∃ s, j.work.schedule .standard = .ok s ∧
        let emitted := Build.blocks .standard env s j.work
        (j.compileBody .standard env).body =
          some (.link emitted.1 fun id => emitted.2.provenance.get? id) := by
  obtain ⟨hab, hlinked⟩ := compileBody_linked h
  refine ⟨hab, ?_, ?_, hlinked⟩
  · rw [compileBody_eq _ env hab]
    exact (Build.body_respects env j.work).role
  · rw [compileBody_eq _ env hab]

theorem Job.compileBody_work {env : Env} {j : Job} (h : j.abandoned = false) {s : Schedule}
    (hs : j.work.schedule .standard = .ok s) :
    (j.compileBody .standard env).work = (Build.blocks .standard env s j.work).2 := by
  have hwork : (j.compileBody .standard env).work = (Build.body .standard env j.work).2 := by
    rw [compileBody, h]
    rfl
  rw [hwork, Build.body_eq hs]

namespace Compiler

def env (c : Compiler) (u : CompilationUnit) : Env :=
  { options := c.options, schema := (Schema.ofUnit u).1 }

def registered (c : Compiler) (u : CompilationUnit) : List Job :=
  (Job.ofUnit u (c.env u).schema).map (Job.registerSignature c.registry (c.env u) u)

def precompiled (c : Compiler) (u : CompilationUnit) : List Job :=
  (c.registered u).map (Job.precompile c.registry (c.env u) u.macros)

def built (c : Compiler) (u : CompilationUnit) : List Job :=
  (c.precompiled u).map (Job.compileBody c.registry (c.env u))

def layout (c : Compiler) (u : CompilationUnit) : ClassLayout :=
  (c.registered u).foldl (fun l j => l.addFunction j.signature) (ClassLayout.ofSchema u (c.env u).schema)

def log (u : CompilationUnit) : MessageLog :=
  (Schema.ofUnit u).2.map fun i => Diagnostic.ofFunction i.1 i.2

def promoted (c : Compiler) (u : CompilationUnit) : List PromotedMember :=
  (c.precompiled u).flatMap (Job.promoted (c.env u))

/-- The class that a compilation with bodies ends with, if it does not fail on the way. -/
def finished (c : Compiler) (u : CompilationUnit) : CompiledClass :=
  c.finalize u (c.env u).schema (c.layout u) (log u) (c.promoted u) (Job.patchAll (c.built u))

variable {c : Compiler} {u : CompilationUnit} {cls : CompiledClass}

theorem enter_ok {jobs : List Job} {phase : CompileState} {next : Unit → Except CompileError CompiledClass}
    (h : (c.enter u jobs phase >>= next) = .ok cls) : next () = .ok cls := by
  unfold enter at h
  split at h
  · cases h
  · split at h
    · cases h
    · exact h

theorem eq_finished (hmode : c.options.mode = .full) (h : c.compile u = .ok cls) : cls = c.finished u := by
  rw [compile] at h
  cases hcheck : c.options.check with
  | error => rw [hcheck] at h; cases h
  | ok =>
      rw [hcheck] at h
      have h := enter_ok (enter_ok h)
      simp only [hmode, reduceCtorEq, if_false] at h
      have h := enter_ok (enter_ok (enter_ok h))
      cases h
      rfl

theorem functions_of_compile (hmode : c.options.mode = .full) (h : c.compile u = .ok cls) :
    cls.functions = (Job.patchAll (c.built u)).map (Job.finish c.options) := by
  rw [eq_finished hmode h]
  rfl

theorem function_of_compile (hreg : c.registry = .standard) (hmode : c.options.mode = .full)
    (h : c.compile u = .ok cls) {i : Nat} {j : Job} {f : CompiledFunction}
    (hj : (c.precompiled u)[i]? = some j) (hf : cls.functions[i]? = some f)
    (hlive : f.abandoned = false) :
    j.abandoned = false ∧ f.symbols = .ofTerms j.work.terms j.signature (j.promotesLocals (c.env u)) ∧
      ∃ s, j.work.schedule .standard = .ok s ∧
        let emitted := Build.blocks .standard (c.env u) s j.work
        let body := Body.link emitted.1 fun id => emitted.2.provenance.get? id
        f.body = { body with statements := body.statements.map (Job.patched (c.built u)
          j.work.role) } := by
  have hbuilt : (c.built u)[i]? = some (j.compileBody c.registry (c.env u)) := by
    rw [built, List.getElem?_map, hj, Option.map_some]
  rw [functions_of_compile hmode h, List.getElem?_map, Job.patchAll_getElem?, hbuilt] at hf
  cases hf
  rw [hreg] at hlive ⊢
  obtain ⟨hab, hrole, hsymbols, s, hs, hbody⟩ := Job.compileBody_live hlive
  refine ⟨hab, hsymbols, s, hs, ?_⟩
  have habandoned : (j.compileBody .standard (c.env u)).abandoned = false := hlive
  simp only [Job.finish, Job.finalBody, hmode, hbody, Option.map_some, habandoned, hrole, built, hreg]
  rfl

theorem body_of_compile (hreg : c.registry = .standard) (hmode : c.options.mode = .full)
    (h : c.compile u = .ok cls) {i : Nat} {j : Job} {f : CompiledFunction}
    (hj : (c.precompiled u)[i]? = some j) (hf : cls.functions[i]? = some f)
    (hlive : f.abandoned = false) {env : Env} (henv : c.env u = env) {s : Schedule}
    (hs : j.work.schedule .standard = .ok s) {blocks : List Block}
    (hblocks : (Build.blocks .standard env s j.work).1 = blocks) :
    ∃ originOf, f.body = { Body.link blocks originOf with
      statements := (Body.link blocks originOf).statements.map
        (Job.patched (c.built u) j.work.role) } := by
  obtain ⟨_, _, s', hs', hbody⟩ := function_of_compile hreg hmode h hj hf hlive
  cases hs.symm.trans hs'
  subst henv hblocks
  exact ⟨_, hbody⟩

end Compiler

end VisualScript
