import VisualScript.Proofs.Compile.Locations

namespace VisualScript

theorem Job.ofUnit_abandoned {u : CompilationUnit} {schema : Schema} {j : Job}
    (h : j ∈ ofUnit u schema) : j.abandoned = false := by
  rcases ofUnit_mem h with ⟨name, g, -, rfl⟩ | ⟨info, -, rfl⟩ | rfl
  · rfl
  · rfl
  · rfl

theorem Job.finalBody_full (j : Job) :
    j.finalBody .full = if j.abandoned then .stub else j.body.getD .stub := by
  cases hbody : j.body with
  | none => simp only [finalBody, hbody, Option.getD_none, ite_self]
  | some body => simp only [finalBody, hbody, Option.getD_some]

namespace Compiler

variable {c : Compiler} {u : CompilationUnit} {cls : CompiledClass} {i : Nat} {j : Job}
    {f : CompiledFunction}

def readied (c : Compiler) (u : CompilationUnit) (j : Job) : Job :=
  (j.registerSignature c.registry (c.env u) u).precompile c.registry (c.env u) u.macros

/-- A function that is given up just if an error was reported on it. Then it does nothing but return;
otherwise its body is the one that its schedule was linked to. -/
structure Exact (c : Compiler) (u : CompilationUnit) (j : Job) (f : CompiledFunction) : Prop where
  abandoned : f.abandoned = true ↔ ∃ d ∈ c.diagnosticsOf u j, d.isError = true
  stub : c.options.mode = .full → f.abandoned = true → f.body = .stub
  linked : c.options.mode = .full → f.abandoned = false → ∃ s,
  (c.readied u j).work.schedule c.registry = .ok s ∧
    let emitted := Build.blocks c.registry (c.env u) s (c.readied u j).work
    let body := Body.link emitted.1 fun id => emitted.2.provenance.get? id
    f.body = { body with statements := body.statements.map (Job.patched (c.built u) f.role) }

theorem built_eq (c : Compiler) (u : CompilationUnit) : c.built u =
    (Job.ofUnit u (c.env u).schema).map fun j => (c.readied u j).compileBody c.registry (c.env u) := by
  rw [built, precompiled, registered, List.map_map, List.map_map]
  rfl

theorem length_functions (h : c.compile u = .ok cls) :
    cls.functions.length = (Job.ofUnit u (c.env u).schema).length := by
  cases hmode : c.options.mode with
  | skeleton => rw [eq_skeleton hmode h, skeleton, List.length_map, registered, List.length_map]
  | full =>
      have hpatched : (Job.patchAll (c.built u)).length = (c.built u).length := by
        have hmap := congrArg List.length (Job.map_patchAll (p := Job.work) (fun _ _ => rfl) (c.built u))
        rwa [List.length_map, List.length_map] at hmap
      rw [functions_of_compile hmode h, List.length_map, hpatched, built_eq, List.length_map]

theorem exact_of_full (hmode : c.options.mode = .full) (h : c.compile u = .ok cls)
    (hj : (Job.ofUnit u (c.env u).schema)[i]? = some j) (hf : cls.functions[i]? = some f) :
    c.Exact u j f := by
  have hcarried : c.carried u j = (c.readied u j).compileBody c.registry (c.env u) := by
    rw [carried, hmode, readied]
  rw [functions_of_compile hmode h, List.getElem?_map, Job.patchAll_getElem?, built_eq,
    List.getElem?_map, hj] at hf
  cases hf
  have hexact := Job.compileBody_abandoned c.registry (c.env u) (j := c.readied u j) rfl
  constructor
  · rw [diagnosticsOf, hcarried, ← List.any_eq_true]
    exact Bool.eq_iff_iff.mp hexact
  · intro _ habandoned
    simp only [Job.finish, hmode, Job.finalBody_full] at habandoned ⊢
    rw [if_pos habandoned]
  · intro _ hlive
    obtain ⟨-, s, hs, hbody⟩ := Job.compileBody_linked hlive
    refine ⟨s, hs, ?_⟩
    simp only [Job.finish, hmode, Job.finalBody_full] at hlive ⊢
    rw [hlive, hbody, built_eq]
    rfl

theorem abandoned_of_skeleton (hmode : c.options.mode = .skeleton) (h : c.compile u = .ok cls)
    (hj : (Job.ofUnit u (c.env u).schema)[i]? = some j) (hf : cls.functions[i]? = some f) :
    f.abandoned = false := by
  rw [eq_skeleton hmode h, skeleton, List.getElem?_map, registered, List.getElem?_map, hj] at hf
  cases hf
  have hlive : j.abandoned = false := Job.ofUnit_abandoned (List.mem_of_getElem? hj)
  exact hlive

/-- The log of a class holds what was reported on each of its functions. With bodies, a function is
given up just if there is an error among this. Without them no function is ever given up, so this is
exact only for functions on which no error was reported. -/
theorem compile_abandons_iff (h : c.compile u = .ok cls) :
    (∃ front, cls.diagnostics = front ++ (Job.ofUnit u (c.env u).schema).flatMap (c.diagnosticsOf u)) ∧
    cls.functions.length = (Job.ofUnit u (c.env u).schema).length ∧
    ∀ (i : Nat) (j : Job) (f : CompiledFunction), (Job.ofUnit u (c.env u).schema)[i]? = some j →
      cls.functions[i]? = some f →
      (c.Exact u j f ↔ c.options.mode = .full ∨ (c.diagnosticsOf u j).hasErrors = false) := by
  obtain ⟨front, hdiagnostics, -⟩ := diagnostics_of_compile h
  refine ⟨⟨front, hdiagnostics⟩, length_functions h, fun i j f hj hf => ?_⟩
  cases hmode : c.options.mode with
  | full => exact iff_of_true (exact_of_full hmode h hj hf) (Or.inl rfl)
  | skeleton =>
      have hlive := abandoned_of_skeleton hmode h hj hf
      have hskeleton : c.options.mode ≠ .full := by simp [hmode]
      rw [or_iff_right (by simp), MessageLog.hasErrors, ← Bool.not_eq_true, List.any_eq_true]
      constructor
      · intro hexact herrors
        exact Bool.false_ne_true (hlive.symm.trans (hexact.abandoned.mpr herrors))
      · intro hnone
        exact ⟨iff_of_false (Bool.eq_false_iff.mp hlive) hnone, fun hfull => absurd hfull hskeleton,
          fun hfull => absurd hfull hskeleton⟩

def blank : ScriptGraph := { name := "open" }

theorem ofUnit_blank (c : Compiler) :
    Job.ofUnit (opening blank) (c.env (opening blank)).schema = [openingJob blank] := by
  have hschema : (Schema.ofUnit (opening blank)).1 = doorEnv.schema :=
    congrArg Prod.fst (schema_opening (by cbv))
  rw [env, hschema]
  exact ofUnit_opening blank

theorem job_blank (c : Compiler) :
    (Job.ofUnit (opening blank) (c.env (opening blank)).schema)[0]? = some (openingJob blank) := by
  rw [ofUnit_blank]
  rfl

theorem registered_blank (env : Env) :
    ((openingJob blank).registerSignature .standard env (opening blank)).work.diagnostics =
    [⟨.missingEntry "open", { function := "open" }⟩] ∧
      ((openingJob blank).registerSignature .standard env (opening blank)).work.failed = false := by
  constructor <;> cbv

theorem prepared_blank (env : Env) : ((openingJob blank).prepared env (opening blank)).work =
      ((openingJob blank).registerSignature .standard env (opening blank)).work ∧
    (((openingJob blank).prepared env (opening blank)).compileBody .standard env).work =
      ((openingJob blank).registerSignature .standard env (opening blank)).work := by
  have herrors : ((openingJob blank).registerSignature .standard env
      (opening blank)).work.hasErrors = true := by
    rw [Working.hasErrors, (registered_blank env).1]
    rfl
  simp only [Job.prepared, Job.compileBody, Job.precompile, Working.precompile, Working.next,
    herrors, if_true, and_self]

theorem diagnosticsOf_blank (c : Compiler) (hreg : c.registry = .standard) :
    c.diagnosticsOf (opening blank) (openingJob blank) =
      [⟨.missingEntry "open", { function := "open" }⟩] := by
  rw [diagnosticsOf, carried, hreg]
  cases c.options.mode with
  | skeleton => exact (registered_blank _).1
  | full => exact (congrArg Working.diagnostics (prepared_blank _).2).trans (registered_blank _).1

theorem compile_blank (c : Compiler) (hreg : c.registry = .standard)
    (hcheck : c.options.check = .ok ()) (hcancel : c.cancelled = false) :
    ∃ cls f, c.compile (opening blank) = .ok cls ∧ cls.functions[0]? = some f := by
  have hfailed := (registered_blank (c.env (opening blank))).2
  have hcompile : ∃ cls, c.compile (opening blank) = .ok cls := by
    cases hmode : c.options.mode with
    | skeleton =>
        rw [compile_skeleton hcheck hcancel hmode, registered, ofUnit_blank, hreg, Job.anyFailed,
          List.map_cons, List.any_cons, hfailed]
        exact ⟨_, rfl⟩
    | full =>
        obtain ⟨hprepared, hbuilt⟩ := prepared_blank (c.env (opening blank))
        refine ⟨_, compile_of_goesThrough hreg hcheck hcancel hmode ?_⟩
        rw [ofUnit_blank, List.forall_mem_singleton, Job.goesThrough, hprepared, hbuilt, hfailed]
        rfl
  obtain ⟨cls, hcls⟩ := hcompile
  have hlength := length_functions hcls
  rw [ofUnit_blank] at hlength
  obtain ⟨f, hf⟩ := List.length_eq_one_iff.mp hlength
  exact ⟨cls, f, hcls, by rw [hf]; rfl⟩

/-- With bodies, the function is given up. -/
theorem blank_abandoned :
    ∃ cls f, compile {} (opening blank) = .ok cls ∧ cls.functions[0]? = some f ∧ f.abandoned = true ∧
    f.body = .stub := by
  obtain ⟨cls, f, hcls, hf⟩ := compile_blank {} rfl rfl rfl
  have hexact := ((compile_abandons_iff hcls).2.2 0 _ f (job_blank _) hf).mpr (Or.inl rfl)
  have habandoned : f.abandoned = true := hexact.abandoned.mpr
    ⟨⟨.missingEntry "open", { function := "open" }⟩,
      by rw [diagnosticsOf_blank {} rfl]; exact List.mem_cons_self, rfl⟩
  exact ⟨cls, f, hcls, hf, habandoned, hexact.stub rfl habandoned⟩

/-- Without bodies, it is not, although the same error is reported on it. -/
theorem blank_not_abandoned :
    ∃ cls f, compile { options := .skeleton } (opening blank) = .ok cls ∧ cls.functions[0]? = some f ∧
    (∃ d ∈ diagnosticsOf { options := .skeleton } (opening blank) (openingJob blank),
      d ∈ cls.diagnostics ∧ d.isError = true) ∧
    f.abandoned = false := by
  obtain ⟨cls, f, hcls, hf⟩ := compile_blank { options := .skeleton } rfl rfl rfl
  obtain ⟨front, hdiagnostics, -⟩ := diagnostics_of_compile hcls
  have hreports := diagnosticsOf_blank { options := .skeleton } rfl
  refine ⟨cls, f, hcls, hf, ⟨⟨.missingEntry "open", { function := "open" }⟩, ?_, ?_, rfl⟩,
    abandoned_of_skeleton rfl hcls (job_blank _) hf⟩
  · rw [hreports]
    exact List.mem_cons_self
  · rw [hdiagnostics, ofUnit_blank, List.flatMap_singleton, hreports]
    exact List.mem_append_right _ List.mem_cons_self

end Compiler

end VisualScript
