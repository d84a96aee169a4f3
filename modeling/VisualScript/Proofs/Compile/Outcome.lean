import VisualScript.Proofs.Compile.Jobs
import VisualScript.Proofs.Compile.Pipeline

namespace VisualScript

namespace Job

variable {u : CompilationUnit} {schema : Schema} {j : Job}

theorem ofUnit_cancelled (h : j ∈ ofUnit u schema) : j.work.cancelled = false := by
  rcases ofUnit_mem h with ⟨name, g, _, rfl⟩ | ⟨info, _, rfl⟩ | rfl
  · rfl
  · rfl
  · exact (Working.noted_foldl_report (fun _ (i : Issue × NodeId) => i.1) (fun _ i => some i.2) none
      _ _).cancelled

theorem registerSignature_sameFunction (env : Env) (u : CompilationUnit) (j : Job) :
    j.work.SameFunction (j.registerSignature .standard env u).work :=
  IsTrans.trans _ _ _ (Working.noted_validateEntries j.work).toSameFunction
    (registerSignature_frame env u j).toSameFunction

theorem compileBody_sameFunction (env : Env) (j : Job) :
    j.work.SameFunction (j.compileBody .standard env).work := by
  unfold compileBody
  extract_lets j'
  split
  · exact Std.Refl.refl j.work
  · exact (Build.body_respects env j.work).toSameFunction

/-- No later phase asks what a function is called, what it is for or what its signature is. -/
structure Same (j j' : Job) : Prop where
  work : j.work.SameFunction j'.work
  signature : j'.signature = j.signature
  overrideOf : j'.overrideOf = j.overrideOf

theorem precompile_same (env : Env) (macros : MacroLibrary) (j : Job) :
    j.Same (j.precompile .standard env macros) :=
  ⟨j.work.precompile_sameFunction env macros, rfl, rfl⟩

theorem compileBody_same (env : Env) (j : Job) : j.Same (j.compileBody .standard env) := by
  refine ⟨compileBody_sameFunction env j, ?_, ?_⟩
  all_goals
    unfold compileBody
    extract_lets j'
    split <;> rfl

def anyFailed (jobs : List Job) : Bool := jobs.any fun j => j.work.failed

theorem anyFailed_patchAll (jobs : List Job) : anyFailed (patchAll jobs) = anyFailed jobs := by
  have hmap (jobs : List Job) : anyFailed jobs = (jobs.map fun j => j.work).any Working.failed := by
    rw [List.any_map]
    rfl
  rw [hmap, hmap, map_patchAll fun _ _ => rfl]

end Job

namespace Compiler

variable {c : Compiler} {u : CompilationUnit} {cls : CompiledClass} {j : Job}

theorem eq_skeleton (hmode : c.options.mode = .skeleton) (h : c.compile u = .ok cls) :
    cls = c.skeleton u (c.layout u) (log u) (c.registered u) := by
  rw [compile] at h
  cases hcheck : c.options.check with
  | error => rw [hcheck] at h; cases h
  | ok =>
      rw [hcheck] at h
      have h := enter_ok (enter_ok h)
      simp only [hmode, if_true] at h
      split at h
      · cases h
      · cases h
        rfl

section Standard

variable (hreg : c.registry = .standard)

include hreg

theorem registered_cancelled (hj : j ∈ c.registered u) : j.work.cancelled = false := by
  rw [registered, hreg] at hj
  obtain ⟨j₀, hj₀, rfl⟩ := List.mem_map.mp hj
  exact (Job.registerSignature_sameFunction _ u j₀).cancelled.trans (Job.ofUnit_cancelled hj₀)

theorem precompiled_cancelled (hj : j ∈ c.precompiled u) : j.work.cancelled = false := by
  rw [precompiled] at hj
  obtain ⟨j₀, hj₀, rfl⟩ := List.mem_map.mp hj
  rw [hreg]
  exact (Job.precompile_same _ _ j₀).work.cancelled.trans (registered_cancelled hreg hj₀)

theorem patched_cancelled (hj : j ∈ Job.patchAll (c.built u)) : j.work.cancelled = false := by
  have hmem : j.work ∈ (c.built u).map Job.work := by
    rw [← Job.map_patchAll fun _ _ => rfl]
    exact List.mem_map_of_mem hj
  obtain ⟨j₁, hj₁, he⟩ := List.mem_map.mp hmem
  obtain ⟨j₀, hj₀, rfl⟩ := List.mem_map.mp hj₁
  rw [← he, hreg]
  exact (Job.compileBody_sameFunction _ j₀).cancelled.trans (precompiled_cancelled hreg hj₀)

end Standard

theorem enter_eq (hcancel : c.cancelled = false) {jobs : List Job}
    (hjobs : ∀ j ∈ jobs, j.work.cancelled = false) (phase : CompileState) :
    c.enter u jobs phase = if Job.anyFailed jobs then .error (.crashed u.name) else .ok () := by
  have hnone : (c.cancelled || jobs.any fun j => j.work.cancelled) = false := by
    rw [hcancel, Bool.false_or, List.any_eq_false]
    intro j hj
    rw [hjobs j hj]
    exact Bool.false_ne_true
  rw [enter, hnone]
  rfl

theorem enter_start (hcancel : c.cancelled = false) (phase : CompileState) : c.enter u [] phase = .ok () :=
  enter_eq hcancel (List.forall_mem_nil _) phase

theorem compile_skeleton (hcheck : c.options.check = .ok ()) (hcancel : c.cancelled = false)
    (hmode : c.options.mode = .skeleton) : c.compile u =
      if Job.anyFailed (c.registered u) then .error (.crashed u.name)
      else .ok (c.skeleton u (c.layout u) (log u) (c.registered u)) := by
  rw [compile, hcheck, enter_start hcancel, enter_start hcancel]
  simp only [hmode, if_true]
  by_cases hfailed : Job.anyFailed (c.registered u) = true
  · rw [if_pos hfailed]
    exact if_pos hfailed
  · rw [if_neg hfailed]
    exact if_neg hfailed

theorem compile_full (hreg : c.registry = .standard) (hcheck : c.options.check = .ok ())
    (hcancel : c.cancelled = false) (hmode : c.options.mode = .full) : c.compile u =
      if Job.anyFailed (c.registered u) || Job.anyFailed (c.precompiled u) ||
        Job.anyFailed (c.built u) then
        .error (.crashed u.name)
      else .ok (c.finished u) := by
  have hregistered := enter_eq hcancel
    (fun j (hj : j ∈ c.registered u) => registered_cancelled hreg hj) .functionsPrecompiled (u := u)
  have hprecompiled := enter_eq hcancel
    (fun j (hj : j ∈ c.precompiled u) => precompiled_cancelled hreg hj) .functionsCompiled (u := u)
  have hbuilt := enter_eq hcancel (fun j (hj : j ∈ Job.patchAll (c.built u)) => patched_cancelled
    hreg hj) .classFinalized (u := u)
  rw [Job.anyFailed_patchAll] at hbuilt
  have hrun : c.compile u = do
      c.enter u (c.registered u) .functionsPrecompiled
      c.enter u (c.precompiled u) .functionsCompiled
      c.enter u (Job.patchAll (c.built u)) .classFinalized
      return c.finished u := by
    rw [compile, hcheck, enter_start hcancel, enter_start hcancel]
    simp only [hmode, reduceCtorEq, if_false]
    rfl
  rw [hrun, hregistered, hprecompiled, hbuilt]
  cases Job.anyFailed (c.registered u) <;> cases Job.anyFailed (c.precompiled u) <;>
    cases Job.anyFailed (c.built u) <;> rfl

end Compiler

end VisualScript
