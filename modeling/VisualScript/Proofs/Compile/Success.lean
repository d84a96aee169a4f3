import VisualScript.Proofs.Compile.Outcome
import VisualScript.Proofs.Working.Descent

namespace VisualScript

namespace Job

variable {env : Env} {u : CompilationUnit}

/-- A function of a unit after all the phases before its body is built. -/
abbrev prepared (env : Env) (u : CompilationUnit) (j : Job) : Job :=
  (j.registerSignature .standard env u).precompile .standard env u.macros

/-- The graph of a function that was precompiled, before the check of it. -/
abbrev pruned (env : Env) (u : CompilationUnit) (j : Job) : ScriptGraph :=
  ((j.registerSignature .standard env u).work.pruned .standard env u.macros).graph

/-- The terms of a precompiled function are those of its signature and what the other nodes add. -/
theorem precompile_registers {j : Job} (hv : (j.prepared env u).work.hasErrors = false)
    (ht : j.work.terms.Orderly) :
    (j.work.validateEntries.registerTerms .standard env true).hasErrors = false ∧
      (j.work.validateEntries.registerTerms .standard env true).terms.Orderly ∧
      (j.prepared env u).work.graph = j.pruned env u ∧
      TermTable.Changes (fun q => ∃ n, (j.pruned env u).node? q.node = some n ∧
        Registry.standard.isEarly n = false)
        (fun kind _ _ => kind = .member) (j.work.validateEntries.registerTerms .standard env
          true).terms (j.prepared env u).work.terms := by
  obtain ⟨hregistered, hvalid, he⟩ := Working.precompile_of_valid hv
  have hnoted := registerSignature_noted env u j
  have hsignature := hnoted.toFrame.hasErrors hregistered
  have hearly := Working.registerTerms_registers env true j.work.validateEntries
  have ht' : j.work.validateEntries.terms.Orderly := (Working.noted_validateEntries j.work).terms ▸ ht
  have hgraph := Working.noted_validateGraph .standard
    ((j.registerSignature .standard env u).work.pruned .standard env u.macros)
  have hlate := Working.registerTerms_registers env false
    (((j.registerSignature .standard env u).work.pruned .standard env u.macros).validateGraph .standard)
  have hwork : (j.prepared env u).work =
      (((j.registerSignature .standard env u).work.pruned .standard env u.macros).validateGraph
        .standard).registerTerms .standard env false :=
    he
  refine ⟨hsignature, TermTable.Changes.orderly (hearly.terms hsignature) ht', ?_, ?_⟩
  · rw [hwork, hlate.graph, hgraph.graph]
  · have hchanges := hlate.terms (hwork ▸ hv)
    rw [← hwork, hgraph.terms, (Working.pruned_kept _ env u.macros).1, hnoted.terms] at hchanges
    refine .mono hchanges ?_ ?_
    · rw [hgraph.graph]
      exact fun _ hq => hq
    · rintro kind name type ⟨id, n, _, hn, hmember | ⟨_, spec, hk, _⟩⟩
      · exact hmember
      · rw [Registry.isEarly, Handler.handler?_standard, hk] at hn
        cases hn

theorem orderly_prepared {j : Job} (hv : (j.prepared env u).work.hasErrors = false)
    (ht : j.work.terms.Orderly) :
    (j.prepared env u).work.terms.Orderly := by
  obtain ⟨_, horderly, _, hchanges⟩ := precompile_registers hv ht
  exact TermTable.Changes.orderly hchanges horderly

theorem binds_prepared {j : Job} (hv : (j.prepared env u).work.hasErrors = false)
    (ht : j.work.terms.Orderly) {q : PortRef} {n : ScriptNode}
    (hn : (j.pruned env u).node? q.node = some n) (hearly : Registry.standard.isEarly n = true)
    {Q : Term → Prop} (hQ : ∀ a b, a.Alike b → Q a → Q b)
    (h : (j.work.validateEntries.registerTerms .standard env true).terms.Binds q Q) :
    (j.prepared env u).work.terms.Binds q Q := by
  obtain ⟨_, horderly, _, hchanges⟩ := precompile_registers hv ht
  refine h.changes hQ horderly hchanges ?_
  rintro ⟨m, hm, hlate⟩
  cases hn.symm.trans hm
  rw [hearly] at hlate
  cases hlate

theorem compileBody_abandoned (r : Registry) (env : Env) {j : Job} (hab : j.abandoned = j.work.hasErrors) :
    (j.compileBody r env).abandoned = (j.compileBody r env).work.hasErrors := by
  cases habandoned : j.abandoned with
  | true =>
      rw [compileBody, habandoned]
      exact habandoned.symm.trans hab
  | false =>
      rw [compileBody_eq r env habandoned]
      cases hs : j.work.schedule r with
      | error e =>
          rw [Build.body, Build.bind_apply]
          simp only [Build.get_apply, hs]
          rw [Build.bind_apply, Build.report, Build.modify_apply, Build.pure_apply]
          exact (Working.hasErrors_report (.scheduleCycle _) rfl _ _ _).symm
      | ok s =>
          rw [Build.body_eq hs]
          cases (Build.blocks r env s j.work).2.hasErrors <;> rfl

theorem compileBody_clean {j : Job} (hab : j.abandoned = j.work.hasErrors)
    (h : (j.compileBody .standard env).work.hasErrors = false) :
    j.abandoned = false ∧ (j.compileBody .standard env).abandoned = false ∧ ∃ s,
    j.work.schedule .standard = .ok s ∧
      (j.compileBody .standard env).work = (Build.blocks .standard env s j.work).2 := by
  have hlive := (compileBody_abandoned .standard env hab).trans h
  obtain ⟨hj, s, hs, _⟩ := compileBody_linked hlive
  exact ⟨hj, hlive, s, hs, compileBody_work hj hs⟩

def goesThrough (env : Env) (u : CompilationUnit) (j : Job) : Bool :=
  !(j.registerSignature .standard env u).work.failed && !(j.prepared env u).work.failed &&
    !((j.prepared env u).compileBody .standard env).work.failed

def passes (env : Env) (u : CompilationUnit) (j : Job) : Bool :=
  j.goesThrough env u && !((j.prepared env u).compileBody .standard env).work.hasErrors

end Job

namespace Compiler

variable {c : Compiler} {u : CompilationUnit} {cls : CompiledClass} {i : Nat} {j : Job}
variable (hreg : c.registry = .standard) (hmode : c.options.mode = .full) (h : c.compile u = .ok cls)
  (hsuccess : cls.isSuccess = true)

theorem precompiled_eq (hreg : c.registry = .standard) (u : CompilationUnit) :
    c.precompiled u = (Job.ofUnit u (c.env u).schema).map (Job.prepared (c.env u) u) := by
  rw [precompiled, registered, hreg, List.map_map]
  rfl

omit hsuccess in
include hmode h in
/-- A class is compiled with success just if nothing is wrong with its names and its functions. -/
theorem isSuccess_iff :
    cls.isSuccess = true ↔ (log u).hasErrors = false ∧ ∀ j ∈ c.built u, j.work.hasErrors = false := by
  have hdefaults : MessageLog.hasErrors
      (((((c.layout u).addPromoted (c.promoted u)).defaultObject (c.env u).schema).2).map
      (Diagnostic.ofFunction u.name)) = false := by
    refine List.any_eq_false.mpr fun d hd => ?_
    obtain ⟨issue, hissue, rfl⟩ := List.mem_map.mp hd
    obtain ⟨m, _, hissue⟩ := List.mem_flatMap.mp hissue
    simp only [ClassLayout.slotValue] at hissue
    split at hissue
    · cases hissue
    · split at hissue
      · cases hissue
      · split at hissue
        · cases hissue
        · cases List.mem_singleton.mp hissue
          exact Bool.false_ne_true
  have hjobs : MessageLog.hasErrors
      ((Job.patchAll (c.built u)).flatMap fun j => j.work.diagnostics) = false ↔
      ∀ j ∈ c.built u, j.work.hasErrors = false := by
    have hworks : (Job.patchAll (c.built u)).map Job.work = (c.built u).map Job.work :=
      Job.map_patchAll (fun _ _ => rfl) _
    rw [← List.flatMap_map Job.work fun w : Working => w.diagnostics, hworks, List.flatMap_map,
      MessageLog.hasErrors,
      List.any_flatMap, List.any_eq_false]
    simp only [Bool.not_eq_true]
    rfl
  have hlog : cls.diagnostics.hasErrors = ((log u).hasErrors || MessageLog.hasErrors
      ((Job.patchAll (c.built u)).flatMap fun j => j.work.diagnostics)) := by
    rw [eq_finished hmode h]
    simp only [finished, finalize, skeleton, MessageLog.hasErrors, List.any_append] at hdefaults ⊢
    rw [hdefaults, Bool.or_false]
  have hstate : cls.isSuccess = !cls.diagnostics.hasErrors := by
    rw [CompiledClass.isSuccess, eq_finished hmode h]
    simp [finished, finalize, skeleton, hmode]
  rw [hstate, hlog, Bool.not_eq_true', Bool.or_eq_false_iff, hjobs]

include hreg hmode h hsuccess in
theorem live_of_success (hj : (c.precompiled u)[i]? = some j) :
    j.work.hasErrors = false ∧ (j.compileBody .standard (c.env u)).work.hasErrors = false ∧
      (c.built u)[i]? = some (j.compileBody .standard (c.env u)) ∧
      (∃ s, j.work.schedule .standard = .ok s ∧
        (j.compileBody .standard (c.env u)).work = (Build.blocks .standard (c.env u) s j.work).2) ∧
      ∃ f, cls.functions[i]? = some f ∧ f.abandoned = false ∧ f.name = j.work.function ∧
        f.role = j.work.role := by
  have hbuilt : (c.built u)[i]? = some (j.compileBody .standard (c.env u)) := by
    rw [built, List.getElem?_map, hj, hreg]
    rfl
  have hclean := ((isSuccess_iff hmode h).mp hsuccess).2 _ (List.mem_of_getElem? hbuilt)
  have hab : j.abandoned = j.work.hasErrors := by
    obtain ⟨j₀, _, rfl⟩ := List.mem_map.mp (List.mem_of_getElem? hj)
    rfl
  obtain ⟨hlive, hlive', hschedule⟩ := Job.compileBody_clean hab hclean
  have hsame := Job.compileBody_sameFunction (c.env u) j
  refine ⟨hab ▸ hlive, hclean, hbuilt, hschedule, ?_⟩
  rw [functions_of_compile hmode h, List.getElem?_map, Job.patchAll_getElem?, hbuilt]
  exact ⟨_, rfl, hlive', hsame.function, hsame.role⟩

theorem built_standard (hreg : c.registry = .standard) (u : CompilationUnit) : c.built u =
    (Job.ofUnit u (c.env u).schema).map fun j => (j.prepared (c.env u) u).compileBody .standard
      (c.env u) := by
  rw [built, precompiled_eq hreg, hreg, List.map_map]
  rfl

theorem compile_of_goesThrough (hreg : c.registry = .standard) (hcheck : c.options.check = .ok ())
    (hcancel : c.cancelled = false) (hmode : c.options.mode = .full)
    (h : ∀ j ∈ Job.ofUnit u (c.env u).schema, j.goesThrough (c.env u) u = true) :
    c.compile u = .ok (c.finished u) := by
  simp only [Job.goesThrough, Bool.and_eq_true, Bool.not_eq_true'] at h
  have hfailed (f : Job → Job) (hf : ∀ j ∈ Job.ofUnit u (c.env u).schema, (f j).work.failed = false) :
      Job.anyFailed ((Job.ofUnit u (c.env u).schema).map f) = false := by
    refine List.any_eq_false.mpr fun j hj => ?_
    obtain ⟨j₀, hj₀, rfl⟩ := List.mem_map.mp hj
    simp [hf j₀ hj₀]
  have hregistered : Job.anyFailed (c.registered u) = false := by
    rw [registered, hreg]
    exact hfailed _ fun j hj => (h j hj).1.1
  have hcompile := compile_full (u := u) hreg hcheck hcancel hmode
  rw [hregistered, precompiled_eq hreg, hfailed _ fun j hj => (h j hj).1.2, built_standard hreg,
    hfailed _ fun j hj => (h j hj).2] at hcompile
  exact hcompile

theorem exists_success (hreg : c.registry = .standard) (hcheck : c.options.check = .ok ())
    (hcancel : c.cancelled = false) (hmode : c.options.mode = .full)
    (hlog : (log u).hasErrors = false)
    (h : ∀ j ∈ Job.ofUnit u (c.env u).schema, j.passes (c.env u) u = true) :
    ∃ cls, c.compile u = .ok cls ∧ cls.isSuccess = true := by
  simp only [Job.passes, Bool.and_eq_true, Bool.not_eq_true'] at h
  have hcompile := compile_of_goesThrough hreg hcheck hcancel hmode fun j hj => (h j hj).1
  refine ⟨c.finished u, hcompile, (isSuccess_iff hmode hcompile).mpr ⟨hlog, fun j hj => ?_⟩⟩
  rw [built_standard hreg] at hj
  obtain ⟨j₀, hj₀, rfl⟩ := List.mem_map.mp hj
  exact (h j₀ hj₀).2

section

variable {s : Schema} {issues : List (String × Issue)}

theorem env_of_schema (h : Schema.ofUnit u = (s, issues)) : env {} u = { schema := s } := by
  rw [env, h]

theorem compile_of_schema (h : Schema.ofUnit u = (s, issues))
    (hjobs : (Job.ofUnit u s).all (Job.goesThrough { schema := s } u) = true) :
    ∃ cls, compile {} u = .ok cls := by
  refine ⟨_, compile_of_goesThrough rfl rfl rfl rfl ?_⟩
  rw [env_of_schema h]
  exact List.all_eq_true.mp hjobs

theorem success_of_schema (h : Schema.ofUnit u = (s, []))
    (hjobs : (Job.ofUnit u s).all (Job.passes { schema := s } u) = true) :
    ∃ cls, compile {} u = .ok cls ∧ cls.isSuccess = true := by
  refine exists_success rfl rfl rfl rfl ?_ ?_
  · rw [log, h]
    rfl
  · rw [env_of_schema h]
    exact List.all_eq_true.mp hjobs

theorem compile_single {j₀ : Job} (h : Schema.ofUnit u = (s, [])) (hjobs : Job.ofUnit u s = [j₀])
    (hpasses : j₀.passes { schema := s } u = true) :
    ∃ cls f, compile {} u = .ok cls ∧ cls.isSuccess = true ∧
      (precompiled {} u)[0]? = some (j₀.prepared { schema := s } u) ∧ cls.functions[0]? = some f ∧
        f.abandoned = false := by
  obtain ⟨cls, hcls, hsuccess⟩ := success_of_schema h (by rw [hjobs, List.all_cons, hpasses]; rfl)
  have hj : (precompiled {} u)[0]? = some (j₀.prepared { schema := s } u) := by
    rw [precompiled_eq rfl, env_of_schema h, hjobs]
    rfl
  obtain ⟨_, _, _, _, f, hf, hlive, _⟩ := live_of_success rfl rfl hcls hsuccess hj
  exact ⟨cls, f, hcls, hsuccess, hj, hf, hlive⟩

end

end Compiler

end VisualScript
