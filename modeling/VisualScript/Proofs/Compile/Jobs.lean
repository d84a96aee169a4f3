import VisualScript.Compile.Job
import VisualScript.Proofs.Graph.Endurance
import VisualScript.Proofs.Graph.Scheduling
import VisualScript.Proofs.Working.Entry

namespace VisualScript

namespace Graph

structure Headed (g : ScriptGraph) : Prop where
  tidy : g.Tidy
  first : ∃ n, g.node? 0 = some n ∧ n.order = 0 ∧ n.kind.entrySpec?.isSome = true

variable {g : ScriptGraph}

theorem Headed.addNode (h : g.Headed) (n : ScriptNode) : (g.addNode n).2.Headed := by
  obtain ⟨m, hm, horder⟩ := h.first
  have hne : 0 ≠ (g.addNode n).1 := fun he => by
    rw [he, h.tidy.addNode_fresh] at hm
    cases hm
  exact ⟨h.tidy.addNode n, m, by rw [h.tidy.node?_addNode, if_neg hne]; exact hm, horder⟩

theorem Headed.merge (h : g.Headed) (other : ScriptGraph) : (g.merge other).2.Headed := by
  obtain ⟨m, hm, horder⟩ := h.first
  have hne : 0 ∉ (g.merge other).1.copies := fun hk => by
    rw [h.tidy.merge_fresh other hk] at hm
    cases hm
  exact ⟨h.tidy.merge other, m, (h.tidy.node?_merge other hne).trans hm, horder⟩

theorem Headed.head_findNodes (h : g.Headed) {p : ScriptNode → Bool}
    (hp : ∀ n : ScriptNode, n.kind.entrySpec?.isSome = true → p n = true) :
    (g.findNodes p).head? = some 0 := by
  obtain ⟨n, hn, horder, hk⟩ := h.first
  have hmem : (0, n) ∈ g.nodes := mem_nodes.mpr hn
  have hpairs : g.nodes.Pairwise fun a b => authored a b = true :=
    List.pairwise_mergeSort authored_trans authored_total _
  have hnodes (m : ScriptNode) (hm : (0, m) ∈ g.nodes) : m = n :=
    Option.some.inj ((mem_nodes.mp hm).symm.trans hn)
  rw [findNodes]
  generalize g.nodes = nodes at hmem hpairs hnodes
  cases nodes with
  | nil => cases hmem
  | cons x rest =>
      obtain ⟨id, m⟩ := x
      have hid : id = 0 := by
        rcases List.mem_cons.mp hmem with he | he
        · exact (congrArg Prod.fst he).symm
        · rcases (authored_iff _ _ _ _).mp ((List.pairwise_cons.mp hpairs).1 (0, n) he) with hlt | ⟨_, hle⟩
          · exact absurd (horder ▸ hlt) (Nat.not_lt_zero _)
          · exact Nat.le_zero.mp hle
      subst hid
      cases hnodes m List.mem_cons_self
      simp [hp n hk]

theorem Headed.entries (h : g.Headed) : g.entries.head? = some 0 :=
  h.head_findNodes fun n hk => by simp [NodeKind.isEntry, hk]

end Graph

namespace EventGraph

theorem start_headed (function : String) : (start function).graph.Headed :=
  ⟨(Graph.tidy_empty function).addNode _, _, rfl, rfl, rfl⟩

theorem addEvent_graph (found : EventGraph × List (Issue × NodeId)) (n : NodeId × ScriptNode) :
    (addEvent found n).1.graph = found.1.graph := by
  obtain ⟨e, issues⟩ := found
  simp only [addEvent]
  split
  · rfl
  · split <;> rfl

theorem merged_headed (u : CompilationUnit) (schema : Schema) :
    (u.eventGraphs.foldl mergePage (start schema.eventGraphFunction)).graph.Headed :=
  List.foldlRecOn (motive := fun e : EventGraph => e.graph.Headed) _ _ (start_headed _)
    fun _ he page _ => he.merge page

theorem ofUnit_headed (u : CompilationUnit) (schema : Schema) : (ofUnit u schema).1.graph.Headed := by
  refine List.foldlRecOn (motive := fun e : EventGraph => e.graph.Headed) _ _ ?_ fun e he s _ => ?_
  · refine List.foldlRecOn (motive := fun f :
      EventGraph × List (Issue × NodeId) => f.1.graph.Headed) _ _ (merged_headed u schema)
      fun f hf n _ => ?_
    rw [addEvent_graph]
    exact hf
  · rw [addInterfaceEvent]
    split
    · exact he
    · exact he.addNode _

end EventGraph

theorem EventInfo.endures_link {g₀ g : ScriptGraph} (h : g₀.Endures g) (l : PortRef × PortRef) :
    g₀.Endures (link g l) := by
  rw [link]
  split
  · next hc => exact h.connect hc
  · exact h

theorem EventInfo.endures_stub (info : EventInfo) :
    ({ name := info.spec.name } : ScriptGraph).Endures info.stub.graph := by
  have hnodes {g₀ g : ScriptGraph} (hg : g₀.Endures g) (nodes : List ScriptNode) :
      g₀.Endures (nodes.foldl (fun g n => (g.addNode n).2) g) :=
    List.foldlRecOn (motive := fun g : ScriptGraph => g₀.Endures g) _ _ hg fun _ hg n _ => hg.addNode n
  have hlinks {g₀ g : ScriptGraph} (hg : g₀.Endures g) (links : List (PortRef × PortRef)) :
    g₀.Endures (links.foldl link g) :=
    List.foldlRecOn (motive := fun g : ScriptGraph => g₀.Endures g) _ _ hg fun _ hg l _ =>
      endures_link hg l
  simp only [stub]
  exact hlinks (hnodes (.refl (Graph.tidy_empty _)) _) info.stubLinks

namespace Job

/-- A function before anything was done for it. In the event graph, the first entry is that of the
function. -/
structure Initial (j : Job) : Prop where
  tidy : j.work.graph.Tidy
  entry : j.work.entry = j.work.graph.entries.head?
  terms : j.work.terms = {}
  eventGraph : j.work.role = .eventGraph → j.work.graph.Headed

theorem ofAuthored_initial (function : String) (g : ScriptGraph) :
    Initial { work := .ofAuthored function .function g } :=
  ⟨Graph.tidy_clone g, rfl, rfl, nofun⟩

theorem ofEvent_initial (info : EventInfo) : (ofEvent info).Initial := by
  have hgraph : (ofEvent info).work.graph = info.stub.graph := by simp only [ofEvent, Working.ofGraph]
  refine ⟨hgraph ▸ info.endures_stub.tidy, ?_, ?_, fun h => ?_⟩
  · simp only [ofEvent, Working.ofGraph]
  · simp only [ofEvent, Working.ofGraph]
  · simp only [ofEvent, Working.ofGraph, reduceCtorEq] at h

theorem ofEventGraph_initial (function : String) {e : EventGraph} (h : e.graph.Headed)
    (issues : List (Issue × NodeId)) :
    (ofEventGraph function e issues).Initial := by
  have hnoted := Working.noted_foldl_report (fun _ i => i.1) (fun _ i => some i.2) none issues
    (.ofGraph function .eventGraph e.graph e.provenance)
  refine ⟨hnoted.graph ▸ h.tidy, ?_, hnoted.terms, fun _ => hnoted.graph ▸ h⟩
  rw [ofEventGraph, hnoted.graph, hnoted.entry, Working.ofGraph]

theorem ofUnit_mem {u : CompilationUnit} {schema : Schema} {j : Job} (h : j ∈ ofUnit u schema) :
    (∃ name g, g ∈ u.functionGraphs ∧ j = { work := .ofAuthored name .function g }) ∨
    (∃ info ∈ (EventGraph.ofUnit u schema).1.events.values, j = ofEvent info) ∨
    j = ofEventGraph schema.eventGraphFunction (EventGraph.ofUnit u schema).1
      (EventGraph.ofUnit u schema).2 := by
  have hfunction (h : j ∈ schema.functions.entries.filterMap fun f =>
      (u.functionGraphs[f.2]?).map fun g => { work := Working.ofAuthored f.1 .function g }) :
      ∃ name g, g ∈ u.functionGraphs ∧ j = { work := .ofAuthored name .function g } := by
    obtain ⟨f, _, hf⟩ := List.mem_filterMap.mp h
    obtain ⟨g, hg, rfl⟩ := Option.map_eq_some_iff.mp hf
    exact ⟨f.1, g, List.mem_of_getElem? hg, rfl⟩
  simp only [ofUnit] at h
  split at h
  · exact Or.inl (hfunction h)
  · rw [List.mem_append, List.mem_append, List.mem_map, List.mem_singleton] at h
    rcases h with (h | ⟨info, hinfo, rfl⟩) | rfl
    · exact Or.inl (hfunction h)
    · exact Or.inr (Or.inl ⟨info, hinfo, rfl⟩)
    · exact Or.inr (Or.inr rfl)

def eventGraphOf (u : CompilationUnit) (schema : Schema) : Job :=
  ofEventGraph schema.eventGraphFunction (EventGraph.ofUnit u schema).1 (EventGraph.ofUnit u schema).2

theorem eventGraphOf_noted (u : CompilationUnit) (schema : Schema) :
    Working.Noted (.ofGraph schema.eventGraphFunction .eventGraph (EventGraph.ofUnit u schema).1.graph
    (EventGraph.ofUnit u schema).1.provenance) (eventGraphOf u schema).work :=
  Working.noted_foldl_report (fun _ (i : Issue × NodeId) => i.1) (fun _ i => some i.2) none _ _

theorem ofUnit_cases (u : CompilationUnit) (schema : Schema) :
    ∃ functions : List Job, (∀ j ∈ functions, j.work.role = .function) ∧
    ((EventGraph.ofUnit u schema).1.events.values = [] ∧ ofUnit u schema = functions ∨
      ofUnit u schema = functions ++ (EventGraph.ofUnit u schema).1.events.values.map ofEvent ++
        [eventGraphOf u schema]) := by
  refine ⟨schema.functions.entries.filterMap fun f =>
    (u.functionGraphs[f.2]?).map fun g => { work := .ofAuthored f.1 .function g }, fun j hj => ?_, ?_⟩
  · obtain ⟨f, _, hf⟩ := List.mem_filterMap.mp hj
    obtain ⟨g, _, rfl⟩ := Option.map_eq_some_iff.mp hf
    rfl
  · simp only [ofUnit]
    split
    · next hnone =>
        refine Or.inl ⟨?_, rfl⟩
        rw [OrderedMap.values, List.isEmpty_iff.mp (Bool.and_eq_true_iff.mp hnone).1]
        rfl
    · exact Or.inr rfl

theorem ofEvent_mem {u : CompilationUnit} {schema : Schema} {info : EventInfo}
    (h : info ∈ (EventGraph.ofUnit u schema).1.events.values) : ofEvent info ∈ ofUnit u schema := by
  obtain ⟨functions, -, ⟨hnone, -⟩ | hall⟩ := ofUnit_cases u schema
  · rw [hnone] at h
    cases h
  · rw [hall]
    exact List.mem_append_left _ (List.mem_append_right _ (List.mem_map_of_mem h))

theorem ofUnit_initial {u : CompilationUnit} {schema : Schema} {j : Job} (h : j ∈ ofUnit u schema) :
    j.Initial := by
  rcases ofUnit_mem h with ⟨name, g, _, rfl⟩ | ⟨info, _, rfl⟩ | rfl
  · exact ofAuthored_initial name g
  · exact ofEvent_initial info
  · exact ofEventGraph_initial _ (EventGraph.ofUnit_headed u schema) _

theorem Initial.wellFormed {j : Job} (h : j.Initial) (hv : j.work.validateEntries.hasErrors = false) :
    ∃ e, j.work.WellFormed e := by
  have hterms : j.work.terms.Valid := h.terms ▸ TermTable.valid_empty
  obtain ⟨hentries, hrole | hevents⟩ := Working.entries_of_valid hv
  · obtain ⟨n, hn, _, hk⟩ := (h.eventGraph hrole).first
    exact ⟨0, h.tidy, h.entry.trans (h.eventGraph hrole).entries, ⟨n, hn, hk⟩, hterms⟩
  · obtain ⟨id, hid⟩ := List.exists_mem_of_ne_nil _ hentries
    obtain ⟨n, hn, hk⟩ := Graph.mem_findNodes.mp hid
    have hmem : id ∈ j.work.graph.entries :=
      Graph.mem_findNodes.mpr ⟨n, hn, by rw [NodeKind.isEntry, hk, Bool.true_or]⟩
    have hhead := List.head?_eq_some_head (List.ne_nil_of_mem hmem)
    obtain ⟨m, hm, hentry⟩ := Graph.mem_findNodes.mp (List.mem_of_head? hhead)
    refine ⟨_, h.tidy, h.entry.trans hhead, ⟨m, hm, ?_⟩, hterms⟩
    rcases Bool.or_eq_true_iff.mp hentry with hspec | hevent
    · exact hspec
    · exact absurd (hevents ▸ Graph.mem_findNodes.mpr ⟨m, hm, hevent⟩) List.not_mem_nil

variable {env : Env} {u : CompilationUnit} {macros : MacroLibrary} {j : Job}

theorem registerSignature_noted (env : Env) (u : CompilationUnit) (j : Job) :
    (j.work.validateEntries.registerTerms .standard env true).Noted
      (j.registerSignature .standard env u).work :=
  Working.noted_foldl_report (fun _ issue => issue) (fun w _ => w.entry) none _ _

theorem registerSignature_frame (env : Env) (u : CompilationUnit) (j : Job) :
    j.work.validateEntries.Frame (j.registerSignature .standard env u).work :=
  IsTrans.trans _ _ _ (Working.registerTerms_frame env true _) (registerSignature_noted env u j).toFrame

theorem registerSignature_valid (env : Env) (u : CompilationUnit) (h : j.work.terms.Valid) :
    (j.registerSignature .standard env u).work.terms.Valid := by
  have hentries : j.work.validateEntries.terms.Valid := (Working.noted_validateEntries j.work).terms ▸ h
  rw [(registerSignature_noted env u j).terms]
  exact Working.registerTerms_valid env true hentries

theorem precompile_wellFormed {schema : Schema} (h : j ∈ ofUnit u schema)
    (hv : ((j.registerSignature .standard env u).precompile .standard env macros).abandoned = false) :
    ∃ e, ((j.registerSignature .standard env u).precompile .standard env macros).work.WellFormed e := by
  have hframe := registerSignature_frame env u j
  obtain ⟨e, he⟩ := (ofUnit_initial h).wellFormed (hframe.hasErrors (Working.precompile_of_valid hv).1)
  have hregistered := (he.noted (Working.noted_validateEntries _)).frame hframe
    (registerSignature_valid env u he.terms)
  exact ⟨e, Working.precompile_wellFormed env macros hregistered⟩

theorem precompile_controlOutput (hv : (j.precompile .standard env macros).abandoned = false)
    {id : NodeId} {n : ScriptNode}
    (hn : (j.precompile .standard env macros).work.graph.node? id = some n) {p : UInt16 × Port}
    (hp : p ∈ n.portsWhere .control .output) :
    ((j.precompile .standard env macros).work.graph.farEnds ⟨id, p.1⟩).length ≤ 1 := by
  obtain ⟨_, hvalid, he⟩ := Working.precompile_of_valid hv
  have hgraph : (j.precompile .standard env macros).work.graph =
    (j.work.pruned .standard env macros).graph :=
    (congrArg Working.graph he).trans
      ((Working.registerTerms_frame env false _).graph.trans
        (Working.noted_validateGraph .standard _).graph)
  rw [hgraph] at hn ⊢
  exact Working.controlOutput_of_valid hvalid hn hp

end Job

end VisualScript
