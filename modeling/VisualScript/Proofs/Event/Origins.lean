import VisualScript.Proofs.Compile.Tracing
import VisualScript.Proofs.Event.Naming

namespace VisualScript

namespace Working

variable {u : CompilationUnit} {A : SourceRef → Prop} {limit : Nat} {muted : NodeId → Prop} {w : Working}

theorem traced_empty (function name : String) (role : FunctionRole) :
    (Working.ofGraph function role { name } ∅).Traced u A limit fun _ => False where
  tidy := Graph.tidy_empty name
  live _ := rfl
  rooted ho := absurd ho.symm (Option.some_ne_none _)
  bodies hn := absurd hn.symm (Option.some_ne_none _)
  mute := False.elim
  joined hl := hl.elim fun _ hl => absurd hl.1 List.not_mem_nil
  located := List.forall_mem_nil _

theorem Traced.clone (h : w.Traced u u.Authored limit muted) {g : ScriptGraph} (hg : u.Authors g) :
    Traced u u.Authored limit muted { w with
      graph := (w.graph.merge g).2
      provenance := w.provenance.recordClone (w.graph.merge g).1 g.name } := by
  refine h.merge hg fun k => ?_
  refine (Provenance.get?_recordClone w.provenance _ _ k).imp_right (Exists.imp fun s hk => ?_)
  obtain ⟨n, _, hn, -⟩ := h.tidy.mem_merge hk.1
  exact ⟨_, hk.1, hk.2, Nat.zero_le _, List.forall_mem_nil _, fun _ => ⟨g, n, hg, rfl, hn⟩⟩

theorem ofAuthored_traced {g : ScriptGraph} (hg : u.Authors g) (function : String) (role : FunctionRole) :
    (Working.ofAuthored function role g).Traced u u.Authored limit fun _ => False :=
  ((traced_empty function g.name role).clone hg).congr rfl rfl rfl

theorem Traced.mono_limit {limit' : Nat} (h : w.Traced u A limit muted) (hle : limit ≤ limit') :
    w.Traced u A limit' muted :=
  { h with rooted := fun ho => ⟨(h.rooted ho).shallow.trans hle, (h.rooted ho).sites,
    (h.rooted ho).source⟩ }

end Working

theorem Graph.Headed.ne_of_event {g : ScriptGraph} (h : g.Headed) {k : NodeId} {n : ScriptNode}
    (hn : g.node? k = some n) {spec : EventSpec} (hk : n.kind = .event spec) : k ≠ 0 := by
  rintro rfl
  obtain ⟨m, hm, -, hentry⟩ := h.first
  cases hn.symm.trans hm
  rw [hk] at hentry
  cases hentry

namespace EventGraph

variable {u : CompilationUnit} {muted : NodeId → Prop} {e : EventGraph}

/-- The nodes of the event graph come from the pages, those that are muted excepted. -/
def Traced (u : CompilationUnit) (muted : NodeId → Prop) (e : EventGraph) : Prop :=
  (Working.ofGraph e.graph.name .eventGraph e.graph e.provenance).Traced u u.Authored 0 muted

theorem entryNode_mute (function : String) : (entryNode function).Mute where
  isEntry := rfl
  current := rfl
  outputs := by simp [entryNode, Port.execOut, Port.dataOut]

theorem emptyEvent_mute (s : Signature) : (emptyEvent s).Mute where
  isEntry := rfl
  current := rfl
  outputs p hp := by
    rcases List.mem_cons.mp hp with rfl | hp
    · rfl
    · obtain ⟨q, -, rfl⟩ := List.mem_map.mp hp
      rfl

theorem start_traced (function : String) : (start function).Traced u (· = 0) := by
  have horigin : (entryOrigin function 0).Rooted u.Authored 0 True :=
    ⟨Nat.le_refl 0, List.forall_mem_nil _, fun h => absurd trivial h⟩
  have hempty : (Working.ofGraph function .eventGraph { name := function } ∅).Traced u u.Authored 0
    fun _ => False :=
    Working.traced_empty function function .eventGraph
  have hplace := hempty.place (n := entryNode function)
    (fun _ => Expansion.ne_composite_of_isInstance rfl _) horigin
    fun _ => entryNode_mute function
  refine Working.Traced.congr (hplace.of_muted fun k => ?_) rfl rfl rfl
  exact ⟨fun hk => Or.inr ⟨hk, trivial⟩, fun hk => hk.elim False.elim And.left⟩

theorem mergePage_traced (h : e.Traced u muted) {page : ScriptGraph} (hpage : page ∈ u.eventGraphs) :
    (mergePage e page).Traced u muted :=
  (Working.Traced.clone h (.page hpage)).congr rfl rfl rfl

theorem merged_traced (u : CompilationUnit) (schema : Schema) :
    (u.eventGraphs.foldl mergePage (start schema.eventGraphFunction)).Traced u (· = 0) :=
  List.foldlRecOn (motive := fun e : EventGraph => e.Traced u (· = 0)) _ _ (start_traced _)
    fun _ he _ hpage =>
    mergePage_traced he hpage

/-- The nodes of the pages are taken in as they are: an event that is listed has the origin of its node. -/
structure Collected (merged : EventGraph) (found : EventGraph × List (Issue × NodeId)) : Prop where
  graph : found.1.graph = merged.graph
  provenance : found.1.provenance = merged.provenance
  entry : found.1.entry = merged.entry
  infos : ∀ {name : String} {info : EventInfo}, found.1.events.get? name = some info →
    info.origin = merged.provenance.get? info.node ∧ ∃ n, merged.graph.node? info.node = some n ∧
      n.kind = .event info.spec ∧
      info.spec.name = name
  issues : ∀ i ∈ found.2, ∃ n spec, merged.graph.node? i.2 = some n ∧ n.kind = .event spec

theorem Collected.addEvent {merged : EventGraph} {found : EventGraph × List (Issue × NodeId)}
    (h : Collected merged found) {x : NodeId × ScriptNode}
    (hx : merged.graph.node? x.1 = some x.2) : Collected merged (addEvent found x) := by
  obtain ⟨e, issues⟩ := found
  rw [EventGraph.addEvent]
  cases hspec : x.2.kind.eventSpec? with
  | none => exact h
  | some spec =>
      have hk := eventSpec?_eq_some.mp hspec
      dsimp only
      split
      · refine ⟨h.graph, h.provenance, h.entry, h.infos, fun i hi => ?_⟩
        rcases List.mem_append.mp hi with hi | hi
        · exact h.issues i hi
        · cases List.mem_singleton.mp hi
          exact ⟨x.2, spec, hx, hk⟩
      · refine ⟨h.graph, h.provenance, h.entry, fun {name info} hinfo => ?_, h.issues⟩
        rw [OrderedMap.get?_insert] at hinfo
        split at hinfo
        · next hname =>
          cases hinfo
          exact ⟨congrArg (·.get? x.1) h.provenance, x.2, hx, hk, hname.symm⟩
        · exact h.infos hinfo

theorem collected (merged : EventGraph) (hevents : merged.events = ∅) :
    Collected merged (merged.graph.nodes.foldl addEvent (merged, [])) := by
  refine List.foldlRecOn (motive := Collected merged) _ _
    ⟨rfl, rfl, rfl, fun hinfo => ?_, List.forall_mem_nil _⟩
    fun found hfound x hx => hfound.addEvent (Graph.mem_nodes.mp hx)
  rw [hevents] at hinfo
  cases hinfo

/-- Where an event came from: an authored node, or the entry of the event graph if the event is made up. -/
def Declares (u : CompilationUnit) (schema : Schema) (name : String) (o : Origin) : Prop :=
  o.callSites = [] ∧ (name ∈ Schema.eventNames u.eventGraphs ∧ u.Authored o.source ∨
    name ∉ Schema.eventNames u.eventGraphs ∧ o.source = ⟨schema.eventGraphFunction, 0⟩)

/-- Of a graph that begins with the graph of the pages, only the entry and what is added behind the
pages is muted, and there is no entry behind the pages. -/
def Hushes (merged g : ScriptGraph) (muted : NodeId → Prop) : Prop :=
  ∀ k, muted k → k = 0 ∨ merged.node? k = none ∧ ∀ n, g.node? k = some n → n.kind.entrySpec? = none

structure Sourced (u : CompilationUnit) (schema : Schema) (merged : ScriptGraph) (e : EventGraph) :
    Prop where
  entry : e.entry = 0
  kept : ∀ {k : NodeId} {n : ScriptNode}, merged.node? k = some n → e.graph.node? k = some n
  traced : ∃ muted, e.Traced u muted ∧ Hushes merged e.graph muted
  infos : ∀ {name : String} {info : EventInfo}, e.events.get? name = some info →
    ∃ o, info.origin = some o ∧ Declares u schema name o
  complete : ∀ name ∈ Schema.eventNames u.eventGraphs, e.events.contains name = true

theorem Collected.sourced {u : CompilationUnit} {schema : Schema} {merged : EventGraph}
    {found : EventGraph × List (Issue × NodeId)} (h : Collected merged found)
    (hhead : merged.graph.Headed) (hentry : merged.entry = 0) (htraced : merged.Traced u (· = 0))
    (hannounces : ∀ name, merged.graph.Announces name → name ∈ Schema.eventNames u.eventGraphs)
    (hcomplete : ∀ name ∈ Schema.eventNames u.eventGraphs, found.1.events.contains name = true) :
    Sourced u schema merged.graph found.1 where
  entry := h.entry.trans hentry
  kept hn := h.graph ▸ hn
  traced := ⟨(· = 0), htraced.congr h.graph h.provenance rfl, fun _ => Or.inl⟩
  infos {name info} hinfo := by
    obtain ⟨horigin, n, hn, hk, hname⟩ := h.infos hinfo
    obtain ⟨o, ho⟩ := Working.Accounted.origin htraced.toAccounted hn
    have hrooted := htraced.rooted ho
    refine ⟨o, horigin.trans ho, List.eq_nil_of_length_eq_zero (Nat.le_zero.mp hrooted.shallow),
      Or.inl ⟨?_, ?_⟩⟩
    · exact hannounces name ⟨info.node, n, info.spec, hn, hk, hname⟩
    · exact hrooted.source (hhead.ne_of_event hn hk)
  complete := hcomplete

section Added

variable {schema : Schema} {merged : ScriptGraph} {s : Signature}

theorem vacant_of_kept
    (hkept : ∀ {k : NodeId} {n : ScriptNode}, merged.node? k = some n → e.graph.node? k = some n)
    (htidy : e.graph.Tidy) (n : ScriptNode) : merged.node? (e.graph.addNode n).1 = none := by
  cases hm : merged.node? (e.graph.addNode n).1 with
  | none => rfl
  | some m => exact absurd ((hkept hm).symm.trans (htidy.addNode_fresh n)) (Option.some_ne_none m)

theorem Hushes.addEvent (h : Hushes merged e.graph muted) (htidy : e.graph.Tidy)
    (hvacant : merged.node? (e.graph.addNode (emptyEvent s)).1 = none) :
    Hushes merged (e.graph.addNode (emptyEvent s)).2 fun k => muted k ∨
      k = (e.graph.addNode (emptyEvent s)).1 ∧ True := by
  have hbehind {k : NodeId} (hold : ∀ n, e.graph.node? k = some n → n.kind.entrySpec? = none)
      (n : ScriptNode)
      (hn : (e.graph.addNode (emptyEvent s)).2.node? k = some n) : n.kind.entrySpec? = none := by
    rw [htidy.node?_addNode] at hn
    split at hn
    · cases hn; rfl
    · exact hold n hn
  rintro k (hk | ⟨rfl, -⟩)
  · exact (h k hk).imp_right fun hnone => ⟨hnone.1, hbehind hnone.2⟩
  · exact Or.inr ⟨hvacant, hbehind fun n hn => absurd (hn.symm.trans (htidy.addNode_fresh _))
      (Option.some_ne_none n)⟩

theorem Sourced.addInterfaceEvent (h : Sourced u schema merged e) (s : Signature) :
    Sourced u schema merged (addInterfaceEvent schema e s) := by
  rw [EventGraph.addInterfaceEvent]
  split
  · exact h
  · next hnew =>
    simp only [Bool.or_eq_true, not_or, Bool.not_eq_true] at hnew
    obtain ⟨muted, htraced, hmuted⟩ := h.traced
    have htidy : e.graph.Tidy := htraced.tidy
    have hvacant := vacant_of_kept h.kept htidy (emptyEvent s)
    -- The event has the origin of the entry, which is nowhere in the pages: so it has to be muted.
    have horigin : Origin.Rooted u.Authored 0 True
      { entryOrigin schema.eventGraphFunction e.entry with synthesized := true } :=
      ⟨Nat.le_refl 0, List.forall_mem_nil _, fun h => absurd trivial h⟩
    have hplace := htraced.place (n := emptyEvent s)
      (fun _ => Expansion.ne_composite_of_isInstance rfl _) horigin fun _ => emptyEvent_mute s
    refine ⟨h.entry, fun {k n} hn => ?_,
      ⟨_, hplace.congr rfl rfl rfl, hmuted.addEvent htidy hvacant⟩, fun {name info} hinfo => ?_,
      fun name hname => ?_⟩
    · have hne : k ≠ (e.graph.addNode (emptyEvent s)).1 := fun he => by
        rw [he, hvacant] at hn
        cases hn
      exact (htidy.node?_addNode _ k).trans ((if_neg hne).trans (h.kept hn))
    · rw [OrderedMap.get?_insert] at hinfo
      split at hinfo
      · next hname =>
        cases hinfo
        refine ⟨{ entryOrigin schema.eventGraphFunction e.entry with synthesized := true }, ?_, rfl,
          Or.inr ⟨?_, ?_⟩⟩
        · exact (Provenance.get?_record _ _ _ _).trans (if_pos rfl)
        · intro hevent
          rw [hname] at hevent
          rw [h.complete _ hevent] at hnew
          cases hnew.1.2
        · rw [← h.entry]
          rfl
      · exact h.infos hinfo
    · exact (OrderedMap.contains_insert _ _ _ _).mpr (Or.inr (h.complete name hname))

end Added

variable (u) (schema : Schema)

theorem merged_entry : (u.eventGraphs.foldl mergePage (start schema.eventGraphFunction)).entry = 0 :=
  List.foldlRecOn (motive := fun e : EventGraph => e.entry = 0) _ _ rfl fun _ he _ _ => he

theorem ofUnit_sourced :
    ∃ merged : ScriptGraph, merged.Headed ∧ Sourced u schema merged (ofUnit u schema).1 ∧
    ∀ i ∈ (ofUnit u schema).2, ∃ n spec, merged.node? i.2 = some n ∧ n.kind = .event spec := by
  refine ⟨_, merged_headed u schema, ?_, ?_⟩
  all_goals
    have hcollected := collected _ (merged_events u schema)
  · refine List.foldlRecOn (motive := Sourced u schema _) _ _ ?_ fun _ he s _ => he.addInterfaceEvent s
    refine hcollected.sourced (merged_headed u schema) (merged_entry u schema) (merged_traced u schema)
      (fun _ => (merged_announces u schema).mp) fun name hname => ?_
    obtain ⟨k, n, spec, hn, hk, hname⟩ := (merged_announces u schema).mpr hname
    exact (contains_foldl_addEvent _ _).mpr (Or.inr ⟨(k, n), Graph.mem_nodes.mpr hn, spec, hk, hname⟩)
  · exact hcollected.issues

theorem get?_of_event {u : CompilationUnit} {schema : Schema} {info : EventInfo}
    (h : info ∈ (ofUnit u schema).1.events.values) :
    (ofUnit u schema).1.events.get? info.spec.name = some info := by
  obtain ⟨name, hname⟩ := OrderedMap.mem_values.mp h
  rwa [((ofUnit_consolidated u schema).2.1 name info hname).1]

theorem origin_of_event {u : CompilationUnit} {schema : Schema} {info : EventInfo}
    (h : info ∈ (ofUnit u schema).1.events.values) :
    ∃ o, info.origin = some o ∧ Declares u schema info.spec.name o := by
  obtain ⟨_, -, hsourced, -⟩ := ofUnit_sourced u schema
  exact hsourced.infos (get?_of_event h)

end EventGraph

namespace EventInfo

variable {u : CompilationUnit} {limit : Nat}

theorem link_traced {A : SourceRef → Prop} {w : Working} (h : w.Traced u A limit fun _ => False)
    (l : PortRef × PortRef) :
    Working.Traced u A limit (fun _ => False) { w with graph := link w.graph l } := by
  rw [link]
  split
  · next hc => exact Expansion.connect_traced h id id hc
  · exact h

theorem stub_traced (info : EventInfo) {o : Origin} (ho : info.origin = some o)
    (hsites : o.callSites = []) :
    (Working.ofGraph info.stub.event .eventStub info.stub.graph info.stub.provenance).Traced u
      (· = o.source) limit fun _ => False := by
  have hrooted : Origin.Rooted (· = o.source) limit False { o with synthesized := true } := by
    refine ⟨?_, ?_, fun _ => rfl⟩ <;> simp [Origin.depth, hsites]
  have hadd {w : Working} (h : w.Traced u (· = o.source) limit fun _ => False) {n : ScriptNode}
    (hn : n.kind.isInstance = false) :=
    h.addNode (fun _ => Expansion.ne_composite_of_isInstance hn _) hrooted
  have hempty : (Working.ofGraph info.spec.name .eventStub { name := info.spec.name } ∅).Traced u
    (· = o.source) limit fun _ => False :=
    Working.traced_empty _ _ _
  have hnodes : (Working.ofGraph info.spec.name .eventStub info.stubBase
      ([0, 1, 2, 3].foldl (fun p id => p.recordAlias id o) ∅)).Traced u (· = o.source) limit
        fun _ => False :=
    (hadd (hadd (hadd (hadd hempty (n := info.stubEntry) rfl) (n := info.stubAssign) rfl)
      (n := ScriptNode.callEventGraph info.spec.name) rfl) (n := ScriptNode.result) rfl).congr rfl rfl rfl
  have hlinks (links : List (PortRef × PortRef)) : ∀ w : Working,
      w.Traced u (· = o.source) limit (fun _ => False) →
      Working.Traced u (· = o.source) limit (fun _ => False)
        { w with graph := links.foldl link w.graph } := by
    induction links with
    | nil => exact fun _ h => h
    | cons l rest ih => exact fun _ h => ih _ (link_traced h l)
  refine (hlinks info.stubLinks _ hnodes).congr ?_ ?_ rfl
  · simp only [Working.ofGraph, stub_graph]
  · simp only [Working.ofGraph, stub, ho]

end EventInfo

namespace Job

variable {u : CompilationUnit} {schema : Schema} {limit : Nat} {j : Job}

theorem ofEvent_traced {info : EventInfo} {o : Origin} (ho : info.origin = some o)
    (hsites : o.callSites = []) :
    (ofEvent info).work.Traced u (· = o.source) limit fun _ => False := by
  refine (info.stub_traced ho hsites).congr ?_ ?_ ?_ <;> simp only [ofEvent]

theorem ofEventGraph_careful {merged : ScriptGraph} {muted : NodeId → Prop}
    (hmuted : EventGraph.Hushes merged (EventGraph.ofUnit u schema).1.graph muted) :
    (ofEventGraph schema.eventGraphFunction (EventGraph.ofUnit u schema).1
      (EventGraph.ofUnit u schema).2).Careful muted := by
  have hnoted := Working.noted_foldl_report (fun _ (i : Issue × NodeId) => i.1) (fun _ i => some i.2) none
    (EventGraph.ofUnit u schema).2
      (Working.ofGraph schema.eventGraphFunction .eventGraph (EventGraph.ofUnit u schema).1.graph
    (EventGraph.ofUnit u schema).1.provenance)
  have hgraph : (ofEventGraph schema.eventGraphFunction (EventGraph.ofUnit u schema).1
      (EventGraph.ofUnit u schema).2).work.graph =
      (EventGraph.ofUnit u schema).1.graph := hnoted.graph
  refine ⟨fun first rest he k hk hm => ?_, Or.inl ⟨hnoted.role, rfl⟩⟩
  rw [hgraph] at he
  have hfirst := (EventGraph.ofUnit_headed u schema).head_findNodes fun n hk => hk
  have hnodup := Graph.nodup_findNodes (EventGraph.ofUnit u schema).1.graph fun n =>
    n.kind.entrySpec?.isSome
  rcases hmuted k hm with rfl | ⟨-, hkind⟩
  · rw [he] at hfirst hnodup
    cases hfirst
    exact (List.nodup_cons.mp hnodup).1 hk
  · have hmem : k ∈ first :: rest := List.mem_cons_of_mem first hk
    rw [← he] at hmem
    obtain ⟨n, hn, hsome⟩ := Graph.mem_findNodes.mp hmem
    rw [hkind n hn] at hsome
    cases hsome

theorem ofEventGraph_traced (u : CompilationUnit) (schema : Schema) (limit : Nat) : ∃ muted,
    (ofEventGraph schema.eventGraphFunction (EventGraph.ofUnit u schema).1
      (EventGraph.ofUnit u schema).2).work.Traced
      u u.Authored limit muted ∧
    (ofEventGraph schema.eventGraphFunction (EventGraph.ofUnit u schema).1
      (EventGraph.ofUnit u schema).2).Careful muted := by
  obtain ⟨merged, hhead, hsourced, hissues⟩ := EventGraph.ofUnit_sourced u schema
  obtain ⟨muted, htraced, hmuted⟩ := hsourced.traced
  -- Issues are about events of the pages, and none of these is muted.
  have hissue : ∀ i ∈ (EventGraph.ofUnit u schema).2, ¬ muted i.2 := by
    intro i hi hm
    obtain ⟨n, spec, hn, hk⟩ := hissues i hi
    rcases hmuted i.2 hm with hzero | ⟨hnone, -⟩
    · exact hhead.ne_of_event hn hk hzero
    · rw [hnone] at hn
      cases hn
  have hstart : (Working.ofGraph schema.eventGraphFunction .eventGraph (EventGraph.ofUnit u schema).1.graph
      (EventGraph.ofUnit u schema).1.provenance).Traced u u.Authored limit muted :=
    (htraced.mono_limit (Nat.zero_le limit)).congr rfl rfl rfl
  exact ⟨muted, hstart.reports (fun _ (i : Issue × NodeId) => i.1) hissue none,
    ofEventGraph_careful hmuted⟩

theorem ofUnit_traced (h : j ∈ ofUnit u schema) (limit : Nat) :
    ∃ A muted, j.work.Traced u A limit muted ∧ j.Careful muted := by
  rcases ofUnit_mem h with ⟨name, g, hg, rfl⟩ | ⟨info, hinfo, rfl⟩ | rfl
  · exact ⟨_, _, Working.ofAuthored_traced (.function hg) name .function, careful_of_none _⟩
  · obtain ⟨o, ho, hdeclares⟩ := EventGraph.origin_of_event hinfo
    exact ⟨_, _, ofEvent_traced ho hdeclares.1, careful_of_none _⟩
  · exact ⟨_, ofEventGraph_traced u schema limit⟩

end Job

end VisualScript
