import VisualScript.Proofs.Compile.Dispatch
import VisualScript.Proofs.Compile.Signatures
import VisualScript.Proofs.Event.Reports

namespace VisualScript

theorem SourceLocation.within_of_call {l : SourceLocation} {A : SourceRef → Prop}
    (hs : ∀ {s : SourceRef}, l.source = some s → A s) (hc : l.callSite = none) : l.Within A :=
  ⟨hs, fun he => absurd (hc.symm.trans he) (Option.some_ne_none _).symm⟩

namespace Compiler

variable {c : Compiler} {u : CompilationUnit} {cls : CompiledClass} {j : Job} {info : EventInfo}

def diagnosticsOf (c : Compiler) (u : CompilationUnit) (j : Job) : MessageLog :=
  (c.carried u j).work.diagnostics

/-- What is not reported on a function points nowhere. -/
theorem diagnostics_of_compile (h : c.compile u = .ok cls) : ∃ front,
    cls.diagnostics = front ++ (Job.ofUnit u (c.env u).schema).flatMap (c.diagnosticsOf u) ∧
      ∀ d ∈ front, d.location.source = none ∧ d.location.callSite = none := by
  have hlog : ∀ d ∈ log u, d.location.source = none ∧ d.location.callSite = none := by
    intro d hd
    obtain ⟨i, -, rfl⟩ := List.mem_map.mp hd
    exact ⟨rfl, rfl⟩
  cases hmode : c.options.mode with
  | skeleton =>
      have hdiagnostics : c.diagnosticsOf u =
        fun j => (j.registerSignature c.registry (c.env u) u).work.diagnostics :=
        funext fun j => by simp only [diagnosticsOf, carried, hmode]
      rw [eq_skeleton hmode h, hdiagnostics]
      refine ⟨log u, ?_, hlog⟩
      simp only [skeleton, registered, List.flatMap_map]
  | full =>
      have hdiagnostics : c.diagnosticsOf u =
          fun j => (((j.registerSignature c.registry (c.env u) u).precompile
          c.registry (c.env u) u.macros).compileBody c.registry (c.env u)).work.diagnostics :=
        funext fun j => by simp only [diagnosticsOf, carried, hmode]
      have hpatched := Job.map_patchAll (p := fun j => j.work.diagnostics) (fun _ _ => rfl) (c.built u)
      rw [eq_finished hmode h, hdiagnostics]
      refine ⟨log u ++ (((c.layout u).addPromoted (c.promoted u)).defaultObject
        (c.env u).schema).2.map (.ofFunction u.name), ?_, ?_⟩
      · simp only [finished, finalize, skeleton, List.flatMap_def, hpatched]
        simp only [built, precompiled, registered, List.map_map]
        rfl
      · refine List.forall_mem_append.mpr ⟨hlog, fun d hd => ?_⟩
        obtain ⟨i, -, rfl⟩ := List.mem_map.mp hd
        exact ⟨rfl, rfl⟩

theorem mem_diagnostics_of_event (h : c.compile u = .ok cls)
    (hinfo : info ∈ (EventGraph.ofUnit u (c.env u).schema).1.events.values) {d : Diagnostic}
    (hd : d ∈ c.diagnosticsOf u (.ofEvent info)) : d ∈ cls.diagnostics := by
  obtain ⟨front, hdiagnostics, -⟩ := diagnostics_of_compile h
  rw [hdiagnostics]
  exact List.mem_append_right _ (List.mem_flatMap.mpr ⟨_, Job.ofEvent_mem hinfo, hd⟩)

section Standard

variable (hreg : c.registry = .standard)

include hreg

theorem carried_traced {muted : NodeId → Prop}
    (h : j.work.Traced u u.Authored c.options.maxExpansionDepth muted) (hterms : j.work.terms = {})
    (hcareful : j.Careful muted) :
    (c.carried u j).work.Traced u u.Authored c.options.maxExpansionDepth muted := by
  rw [carried, hreg]
  have hregistered : (j.registerSignature .standard (c.env u) u).work.Traced u u.Authored
    c.options.maxExpansionDepth muted :=
    Job.registerSignature_traced h hterms hcareful
  cases c.options.mode with
  | skeleton => exact hregistered
  | full => exact Job.compileBody_traced (@Job.precompile_traced u _ _ (c.env u) _ hregistered fun _ => id)

theorem carried_pinned {o : Origin} (ho : info.origin = some o) (hsites : o.callSites = []) :
    (c.carried u (.ofEvent info)).work.Pinned info.stub.graph o.source := by
  rw [carried, hreg]
  have hregistered := Job.registerSignature_pinned ho hsites (c.env u) u
  cases c.options.mode with
  | skeleton => exact hregistered
  | full => exact Job.compileBody_pinned (info.precompile_pinned hregistered u.macros)

theorem located_of_invented (hinfo : info ∈ (EventGraph.ofUnit u (c.env u).schema).1.events.values)
    (hnew : EventGraph.Invents u (c.env u).schema info.spec.name) :
    ∀ d ∈ c.diagnosticsOf u (.ofEvent info),
      d.location.source = some ⟨(c.env u).schema.eventGraphFunction, 0⟩ ∧ d.location.callSite = none := by
  obtain ⟨o, ho, hsites, ⟨hauthored, -⟩ | ⟨-, hsource⟩⟩ := EventGraph.origin_of_event hinfo
  · exact absurd hauthored hnew.event
  · rw [← hsource]
    exact (carried_pinned hreg ho hsites).located

theorem located_of_authored (hj : j ∈ Job.ofUnit u (c.env u).schema)
    (hauthored : ∀ info, j = .ofEvent info → info ∈ (EventGraph.ofUnit u
      (c.env u).schema).1.events.values → ¬ EventGraph.Invents u (c.env u).schema info.spec.name) :
    ∀ d ∈ c.diagnosticsOf u j, d.location.Within u.Authored := by
  have hterms := (Job.ofUnit_initial hj).terms
  rcases Job.ofUnit_mem hj with ⟨name, g, hg, rfl⟩ | ⟨info, hinfo, rfl⟩ | rfl
  · exact (carried_traced hreg (Working.ofAuthored_traced (.function hg) name .function) hterms
      (Job.careful_of_none _)).located
  · obtain ⟨o, ho, hsites, ⟨-, hsource⟩ | ⟨hnew, -⟩⟩ := EventGraph.origin_of_event hinfo
    · intro d hd
      obtain ⟨hs, hcall⟩ := (carried_pinned hreg ho hsites).located d hd
      exact SourceLocation.within_of_call (fun he => Option.some.inj (hs.symm.trans he) ▸ hsource) hcall
    · have hcontains : (EventGraph.ofUnit u (c.env u).schema).1.events.contains info.spec.name = true := by
        rw [OrderedMap.contains_eq_isSome, EventGraph.get?_of_event hinfo, Option.isSome_some]
      exact absurd (((EventGraph.contains_ofUnit u (c.env u).schema).mp hcontains).resolve_left
        hnew) (hauthored info rfl hinfo)
  · obtain ⟨muted, htraced, hcareful⟩ :=
      Job.ofEventGraph_traced u (c.env u).schema c.options.maxExpansionDepth
    exact (carried_traced hreg htraced hterms hcareful).located

theorem located_cases (h : c.compile u = .ok cls) {d : Diagnostic} (hd : d ∈ cls.diagnostics) :
    d.location.Within u.Authored ∨
    ∃ info ∈ (EventGraph.ofUnit u (c.env u).schema).1.events.values,
    EventGraph.Invents u (c.env u).schema info.spec.name ∧
      d ∈ c.diagnosticsOf u (.ofEvent info) ∧ d.location.source =
        some ⟨(c.env u).schema.eventGraphFunction, 0⟩ ∧
      d.location.callSite = none := by
  obtain ⟨front, hdiagnostics, hfront⟩ := diagnostics_of_compile h
  rw [hdiagnostics] at hd
  rcases List.mem_append.mp hd with hd | hd
  · obtain ⟨hsource, hcall⟩ := hfront d hd
    exact Or.inl (SourceLocation.within_of_call
      (fun he => absurd (hsource.symm.trans he) (Option.some_ne_none _).symm) hcall)
  · obtain ⟨j, hj, hd⟩ := List.mem_flatMap.mp hd
    by_cases hauthored : ∀ info, j = .ofEvent info →
      info ∈ (EventGraph.ofUnit u (c.env u).schema).1.events.values →
        ¬ EventGraph.Invents u (c.env u).schema info.spec.name
    · exact Or.inl (located_of_authored hreg hj hauthored d hd)
    · push Not at hauthored
      obtain ⟨info, rfl, hinfo, hnew⟩ := hauthored
      exact Or.inr ⟨info, hinfo, hnew, hd, located_of_invented hreg hinfo hnew d hd⟩

end Standard

/-- Whatever a diagnostic points to is authored, unless it is about an event that is made up for an
interface. Such a diagnostic points to the entry of the event graph, so all is authored just if
there is none. -/
theorem compile_locates_iff (hreg : c.registry = .standard) (h : c.compile u = .ok cls) :
    (∀ d ∈ cls.diagnostics, d.location.Within u.Authored ∨
      ∃ info ∈ (EventGraph.ofUnit u (c.env u).schema).1.events.values,
      EventGraph.Invents u (c.env u).schema info.spec.name ∧
        d ∈ c.diagnosticsOf u (.ofEvent info) ∧ d.location.source =
          some ⟨(c.env u).schema.eventGraphFunction, 0⟩ ∧
        d.location.callSite = none) ∧
    ((∀ d ∈ cls.diagnostics, d.location.Within u.Authored) ↔
      u.Authored ⟨(c.env u).schema.eventGraphFunction, 0⟩ ∨
        ∀ info ∈ (EventGraph.ofUnit u (c.env u).schema).1.events.values,
          EventGraph.Invents u (c.env u).schema info.spec.name →
            c.diagnosticsOf u (.ofEvent info) = []) := by
  refine ⟨fun d => located_cases hreg h, fun hwithin => ?_, fun hcases d hd => ?_⟩
  · -- The first thing that is reported on a made-up event gives the entry away.
    by_contra hnot
    push Not at hnot
    obtain ⟨hentry, info, hinfo, hnew, hsome⟩ := hnot
    obtain ⟨d, rest, hd⟩ := List.exists_cons_of_ne_nil hsome
    have hd : d ∈ c.diagnosticsOf u (.ofEvent info) := hd ▸ List.mem_cons_self
    exact hentry ((hwithin d (mem_diagnostics_of_event h hinfo hd)).source
      (located_of_invented hreg hinfo hnew d hd).1)
  · rcases located_cases hreg h hd with hwithin | ⟨info, hinfo, hnew, hd, hsource, hcall⟩
    · exact hwithin
    · rcases hcases with hentry | hnone
      · exact SourceLocation.within_of_call (fun he => Option.some.inj (hsource.symm.trans he) ▸
          hentry) hcall
      · rw [hnone info hinfo hnew] at hd
        cases hd

def creakGraph :
    ScriptGraph := { name := "open", slots := [some
      { ScriptNode.entry "open" with deprecated := true }], nextOrder := 1 }

theorem passes_creak : (openingJob creakGraph).passes doorEnv (opening creakGraph) = true := by cbv

theorem creak_located : ∃ cls d, compile {} (opening creakGraph) = .ok cls ∧ d ∈ cls.diagnostics ∧
    d = ⟨.deprecatedNode "open", { function := "open", source := some ⟨"open", 0⟩ }⟩ ∧
    ∀ d ∈ cls.diagnostics, d.location.Within (opening creakGraph).Authored := by
  obtain ⟨cls, f, hcls, -⟩ := compile_opening (by cbv) passes_creak
  have henv : env {} (opening creakGraph) = doorEnv := env_opening (by cbv)
  have hreports : diagnosticsOf {} (opening creakGraph) (openingJob creakGraph) =
      [⟨.deprecatedNode "open", { function := "open", source := some ⟨"open", 0⟩ }⟩] := by
    rw [diagnosticsOf, carried, henv]
    cbv
  refine ⟨cls, _, hcls, ?_, rfl, (compile_locates_iff rfl hcls).2.mpr (Or.inr fun info _ hnew => ?_)⟩
  · obtain ⟨front, hdiagnostics, -⟩ := diagnostics_of_compile hcls
    rw [hdiagnostics, henv, ofUnit_opening, List.flatMap_singleton, hreports]
    exact List.mem_append_right _ List.mem_cons_self
  · obtain ⟨s, hs, -⟩ := hnew.required
    cases hs

/-- A gate is to be opened in two ways: by its parent with a parameter, by an interface without. -/
def gate : CompilationUnit where
  name := "Gate"
  parent :=
    some { name := "Barrier", functions := [{ name := "open", params := [⟨"by", ⟨.int, .single⟩,
      .input⟩] }] }
  interfaces := [{ name := "Openable", functions := [{ name := "open" }] }]

def gateEnv : Env where
  schema := { name := "Gate", parent := some "Barrier", eventGraphFunction := "ExecuteEventGraph_Gate" }

theorem schema_gate : Schema.ofUnit gate = (gateEnv.schema, []) := by
  have hgraph : Schema.eventGraphName "Gate" = "ExecuteEventGraph_Gate" := rfl
  simp only [Schema.ofUnit, gate, hgraph]
  rfl

theorem env_gate : env {} gate = gateEnv := env_of_schema schema_gate

theorem compile_gate : ∃ cls, compile {} gate = .ok cls := compile_of_schema schema_gate (by cbv)

theorem gate_unauthored (g : ScriptGraph) : ¬ gate.Authors g := by
  intro h
  induction h with
  | function h | page h | macroBody h => cases h
  | composite _ _ _ ih => exact ih

/-- What is wrong with the event that is made up is reported at a node that nobody made. -/
theorem gate_not_located : ∃ cls d, compile {} gate = .ok cls ∧ d ∈ cls.diagnostics ∧
    d = ⟨.parameterOrder "open" "by",
      { function := "open", source := some ⟨"ExecuteEventGraph_Gate", 0⟩ }⟩ ∧
    ¬ d.location.Within gate.Authored := by
  obtain ⟨cls, hcls⟩ := compile_gate
  have hreports : (Job.ofUnit gate gateEnv.schema).flatMap (diagnosticsOf {} gate) =
      [⟨.parameterOrder "open" "by",
        { function := "open", source := some ⟨"ExecuteEventGraph_Gate", 0⟩ }⟩] := by
    have hof : diagnosticsOf {} gate = fun j => (((j.registerSignature .standard gateEnv gate).precompile
        .standard gateEnv gate.macros).compileBody .standard gateEnv).work.diagnostics :=
      funext fun j => by rw [diagnosticsOf, carried, env_gate]
    rw [hof]
    cbv
  refine ⟨cls, _, hcls, ?_, rfl, fun hwithin => ?_⟩
  · obtain ⟨front, hdiagnostics, -⟩ := diagnostics_of_compile hcls
    rw [hdiagnostics, env_gate, hreports]
    exact List.mem_append_right _ List.mem_cons_self
  · obtain ⟨g, n, hg, -⟩ := hwithin.source rfl
    exact gate_unauthored g hg

end Compiler

end VisualScript
