import VisualScript.Proofs.Compile.Outcome
import VisualScript.Proofs.Event.Consolidation
import VisualScript.Proofs.Graph.Removal

namespace VisualScript

namespace Working

variable {w₀ w w' : Working}

structure Endures (w₀ w : Working) : Prop where
  graph : w₀.graph.Endures w.graph
  crashed : w.crashed = w₀.crashed

theorem Endures.refl (h : w.graph.Tidy) : w.Endures w := ⟨.refl h, rfl⟩

theorem Endures.trans {w'' : Working} (h : w.Endures w') (h' : w'.Endures w'') : w.Endures w'' :=
  ⟨h.graph.trans h'.graph, h'.crashed.trans h.crashed⟩

theorem Endures.frame (h : w₀.Endures w) (hf : w.Frame w') : w₀.Endures w' :=
  ⟨hf.graph ▸ h.graph, (hf.crashed h.graph.tidy.unthreaded).trans h.crashed⟩

theorem Endures.next {f : Working → Working} (h : w₀.Endures w) (hf : w₀.Endures w → w₀.Endures (f w)) :
    w₀.Endures (w.next f) := by
  unfold Working.next
  split
  · exact h
  · exact hf h

/-- A function that works on a graph without threads fails only if it did so from the start, or if
order keys run out. -/
theorem Endures.failed_iff (h : w₀.Endures w) (hwhole : w₀.graph.torn = false) :
    w.failed = true ↔ w₀.crashed = true ∨ w.graph.exhausted = true := by
  rw [failed, h.crashed, h.graph.ruined_eq hwhole, Bool.or_eq_true]

end Working

namespace Expansion

theorem endures_invariant (w₀ : Working) : Invariant w₀.Endures fun _ => True where
  edit {site w w'} h hw := by
    cases h with
    | report => exact ⟨hw.graph, hw.crashed⟩
    | inspect p => exact hw.frame (w.frame_inspect p)
    | link a b l g h => exact ⟨hw.graph.connect h, hw.crashed⟩
    | unlink p => exact ⟨hw.graph.disconnect p, hw.crashed⟩
    | setDefault p value => exact ⟨hw.graph.modifyNode _ _, hw.crashed⟩
    | synthesize n => exact ⟨hw.graph.addNode n, hw.crashed⟩
  enter id body resolved hw :=
    ⟨resolvePorts_induction resolved (hw.graph.merge body) fun _ id _ f _ hg => hg.modifyNode id f,
      hw.crashed⟩
  remove hw _ := ⟨hw.graph.removeNode _, hw.crashed⟩
  copies _ _ := trivial
  expanded _ _ _ := trivial

end Expansion

namespace Working

variable {w₀ w : Working} {env : Env}

theorem Endures.prune (h : w₀.Endures w) (r : Registry) (env : Env) (roots : List NodeId) :
    w₀.Endures (w.prune r env roots).2 := by
  have hstrays := Graph.liveStrays_of_unthreaded h.graph.tidy.unthreaded (r.policy env.options) roots
  have hw : w₀.Endures
      { w with crashed := w.crashed || w.graph.liveStrays (r.policy env.options) roots } :=
    ⟨h.graph, by rw [hstrays, Bool.or_false, h.crashed]⟩
  exact (Expansion.endures_invariant w₀).removeNodes (hw.frame (noted_warn _ _).toFrame) fun _ _ => trivial

theorem Endures.precompile (h : w₀.Endures w) (env : Env) (macros : MacroLibrary) :
    w₀.Endures (w.precompile .standard env macros) := by
  refine h.next fun h => ?_
  have hexpand : w₀.Endures (w.expand env macros).work := (Expansion.endures_invariant w₀).expand h
  refine hexpand.next fun h => ?_
  refine ((h.prune .standard env _).frame (noted_validateGraph _ _).toFrame).next fun h => ?_
  exact h.frame (registerTerms_frame _ _ _)

end Working

namespace Job

variable {u : CompilationUnit} {schema : Schema} {w₀ : Working} {j : Job} {env : Env}

theorem endures_registerSignature (h : w₀.Endures j.work) (env : Env) (u : CompilationUnit) :
    w₀.Endures (j.registerSignature .standard env u).work :=
  (h.frame (Working.noted_validateEntries j.work).toFrame).frame (registerSignature_frame env u j)

theorem endures_compileBody (h : w₀.Endures j.work) (env : Env) :
    w₀.Endures (j.compileBody .standard env).work := by
  unfold compileBody
  extract_lets j'
  split
  · exact h
  · exact h.frame (Build.body_respects env j.work).toFrame

theorem ofUnit_torn (h : j ∈ ofUnit u schema) : j.work.graph.torn = false := by
  rcases ofUnit_mem h with ⟨name, g, _, rfl⟩ | ⟨info, _, rfl⟩ | rfl
  · exact ((Graph.Endures.refl (Graph.tidy_empty g.name)).merge g).torn
  · simp only [ofEvent, Working.ofGraph]
    exact info.endures_stub.torn
  · have hgraph := (eventGraphOf_noted u schema).graph
    exact (congrArg Graph.torn hgraph).trans (EventGraph.ofUnit_consolidated u schema).1.ready.whole

theorem ofUnit_crashed : (∃ j ∈ ofUnit u schema, j.work.crashed = true) ↔
    ∃ info ∈ (EventGraph.ofUnit u schema).1.events.values, info.overflows = true := by
  constructor
  · rintro ⟨j, hj, hcrashed⟩
    rcases ofUnit_mem hj with ⟨name, g, _, rfl⟩ | ⟨info, hinfo, rfl⟩ | rfl
    · cases hcrashed
    · exact ⟨info, hinfo, hcrashed⟩
    · have hnoted := eventGraphOf_noted u schema
      have htidy := (EventGraph.ofUnit_consolidated u schema).1.ready.tidy
      cases (hnoted.crashed htidy.unthreaded).symm.trans hcrashed
  · rintro ⟨info, hinfo, hover⟩
    exact ⟨_, ofEvent_mem hinfo, hover⟩

theorem anyFailed_iff {jobs : List Job} {f : Job → Job} (hf : ∀ j ∈ jobs, j.work.Endures (f j).work)
    (hwhole : ∀ j ∈ jobs, j.work.graph.torn = false) : anyFailed (jobs.map f) = true ↔
      (∃ j ∈ jobs, j.work.crashed = true) ∨ ∃ j ∈ jobs, (f j).work.graph.exhausted = true := by
  rw [anyFailed, List.any_map, List.any_eq_true, ← exists_or]
  refine exists_congr fun j => ?_
  rw [← and_or_left]
  exact and_congr_right fun hj => (hf j hj).failed_iff (hwhole j hj)

end Job

namespace Compiler

variable {c : Compiler} {u : CompilationUnit} {cls : CompiledClass} {j : Job}

def carried (c : Compiler) (u : CompilationUnit) (j : Job) : Job :=
  let registered := j.registerSignature c.registry (c.env u) u
  match c.options.mode with
  | .skeleton => registered
  | .full => (registered.precompile c.registry (c.env u) u.macros).compileBody c.registry (c.env u)

/-- The unit is too large: the parameters of an event outnumber the ports its function can have, or
a function needs more order keys than there are. -/
def Overloads (c : Compiler) (u : CompilationUnit) : Prop :=
  (∃ info ∈ (EventGraph.ofUnit u (c.env u).schema).1.events.values, info.overflows = true) ∨
    ∃ j ∈ Job.ofUnit u (c.env u).schema, (c.carried u j).work.graph.exhausted = true

theorem crashed_iff {failed : Bool} :
    (if failed then .error (.crashed u.name) else .ok cls : Except CompileError CompiledClass) =
    .error (.crashed u.name) ↔ failed = true := by
  cases failed <;> simp

/-- Under valid options, a compilation that is not cancelled gives a class unless the unit is too large. -/
theorem compile_crashes_iff (hreg : c.registry = .standard) (hcheck : c.options.check = .ok ())
    (hcancel : c.cancelled = false) : c.compile u = .error (.crashed u.name) ↔ c.Overloads u := by
  let f (j : Job) : Job := j.registerSignature .standard (c.env u) u
  let g (j : Job) : Job := (f j).precompile .standard (c.env u) u.macros
  let h (j : Job) : Job := (g j).compileBody .standard (c.env u)
  have hf (j : Job) (hj : j ∈ Job.ofUnit u (c.env u).schema) : j.work.Endures (f j).work :=
    Job.endures_registerSignature (.refl (Job.ofUnit_initial hj).tidy) _ _
  have hwhole (j : Job) (hj : j ∈ Job.ofUnit u (c.env u).schema) := Job.ofUnit_torn hj
  have hregistered : Job.anyFailed (c.registered u) = true ↔
      (∃ j ∈ Job.ofUnit u (c.env u).schema, j.work.crashed = true) ∨
      ∃ j ∈ Job.ofUnit u (c.env u).schema, (f j).work.graph.exhausted = true := by
    rw [registered, hreg]
    exact Job.anyFailed_iff hf hwhole
  rw [Overloads, ← Job.ofUnit_crashed]
  cases hmode : c.options.mode with
  | skeleton =>
      simp only [carried, hmode, hreg]
      rw [compile_skeleton hcheck hcancel hmode, crashed_iff]
      exact hregistered
  | full =>
      have hg (j : Job) (hj : j ∈ Job.ofUnit u (c.env u).schema) : (f j).work.Endures (g j).work :=
        Working.Endures.precompile (.refl (hf j hj).graph.tidy) _ _
      have hh (j : Job) (hj : j ∈ Job.ofUnit u (c.env u).schema) : (g j).work.Endures (h j).work :=
        Job.endures_compileBody (.refl (hg j hj).graph.tidy) _
      have hg' (j : Job) (hj : j ∈ Job.ofUnit u (c.env u).schema) := (hf j hj).trans (hg j hj)
      have hh' (j : Job) (hj : j ∈ Job.ofUnit u (c.env u).schema) := (hg' j hj).trans (hh j hj)
      have hprecompiled : Job.anyFailed (c.precompiled u) = true ↔
          (∃ j ∈ Job.ofUnit u (c.env u).schema, j.work.crashed = true) ∨
          ∃ j ∈ Job.ofUnit u (c.env u).schema, (g j).work.graph.exhausted = true := by
        rw [precompiled, registered, hreg, List.map_map]
        exact Job.anyFailed_iff hg' hwhole
      have hbuilt : Job.anyFailed (c.built u) = true ↔
          (∃ j ∈ Job.ofUnit u (c.env u).schema, j.work.crashed = true) ∨
          ∃ j ∈ Job.ofUnit u (c.env u).schema, (h j).work.graph.exhausted = true := by
        rw [built, precompiled, registered, hreg, List.map_map, List.map_map]
        exact Job.anyFailed_iff hh' hwhole
      simp only [carried, hmode, hreg]
      rw [compile_full hreg hcheck hcancel hmode, crashed_iff, Bool.or_eq_true, Bool.or_eq_true,
        hregistered, hprecompiled, hbuilt]
      constructor
      · rintro (((hcrash | ⟨j, hj, hout⟩) | (hcrash | ⟨j, hj, hout⟩)) | hlast)
        · exact Or.inl hcrash
        · exact Or.inr ⟨j, hj, ((hg j hj).trans (hh j hj)).graph.exhausted hout⟩
        · exact Or.inl hcrash
        · exact Or.inr ⟨j, hj, (hh j hj).graph.exhausted hout⟩
        · exact hlast
      · exact fun hlast => Or.inr hlast

end Compiler

end VisualScript
