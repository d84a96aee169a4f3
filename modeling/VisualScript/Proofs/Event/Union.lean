import VisualScript.Proofs.Class.Naming
import VisualScript.Proofs.Event.Naming
import VisualScript.Proofs.Graph.Additions
import VisualScript.Proofs.Occurrences

namespace VisualScript

namespace EventGraph

variable {e : EventGraph} {function : String} {copies : List (ScriptGraph × CloneMap)}
    {made : List (Signature × NodeId)}

/-- The graph holds its entry, then the copies of the pages, then empty events; and it has no links but the
copies of those of the pages. -/
structure Joins (function : String) (copies : List (ScriptGraph × CloneMap))
    (made : List (Signature × NodeId)) (e : EventGraph) : Prop where
  ready : e.graph.Ready
  nodeIds : e.graph.nodeIds = e.entry :: ((copies.flatMap fun c => c.2.copies) ++ made.map Prod.snd)
  entry : ∃ order, e.graph.node? e.entry = some { entryNode function with order }
  sources : ∀ c ∈ copies, c.2.pairs.map Prod.fst = c.1.nodeIds
  copied : ∀ c ∈ copies, ∀ p ∈ c.2.pairs, ∃ n order, c.1.node? p.1 = some n ∧
    e.graph.node? p.2 = some { n with order }
  origins : ∀ c ∈ copies, ∀ p ∈ c.2.pairs, e.provenance.get? p.2 = some { source := ⟨c.1.name, p.1⟩ }
  empty : ∀ m ∈ made, ∃ order, e.graph.node? m.2 = some { emptyEvent m.1 with order }
  links : (e.graph.links.map Link.bare).Perm (copies.flatMap fun c => c.1.links.filterMap c.2.image?)

theorem start_joins (function : String) : Joins function [] [] (start function) := by
  have hempty : ({ name := function } : ScriptGraph).Ready := (Graph.sound_empty function).ready rfl
  have hentry : (start function).graph.node? (start function).entry = some (entryNode function) := rfl
  have hids := hempty.addNode_nodeIds (entryNode function)
  rw [show ({ name := function } : ScriptGraph).nodeIds = [] from
    by simp [Graph.nodeIds, Graph.nodes, Graph.stored]] at hids
  exact ⟨start_ready function, hids, ⟨_, hentry⟩, List.forall_mem_nil _, List.forall_mem_nil _,
    List.forall_mem_nil _, List.forall_mem_nil _, .refl _⟩

/-- The nodes of a page get copies of their own, each with its source as origin. -/
theorem Joins.mergePage (h : Joins function copies [] e) (page : ScriptGraph) :
    Joins function (copies ++ [(page, (e.graph.merge page).1)]) [] (mergePage e page) := by
  have htidy := h.ready.tidy
  refine ⟨h.ready.merge page, ?_, ?_, ?_, ?_, ?_, List.forall_mem_nil _, ?_⟩
  · refine (h.ready.merge_nodeIds page).trans ?_
    rw [h.nodeIds, List.flatMap_append]
    simp [EventGraph.mergePage]
  · obtain ⟨order, hn⟩ := h.entry
    exact ⟨order, (h.ready.merge_kept page hn).2⟩
  · refine List.forall_mem_append.mpr ⟨h.sources, List.forall_mem_singleton.mpr ?_⟩
    exact e.graph.merge_sources page
  · refine List.forall_mem_append.mpr ⟨fun c hc p hp => ?_,
      List.forall_mem_singleton.mpr fun p hp => htidy.mem_merge hp⟩
    obtain ⟨n, order, hsource, hn⟩ := h.copied c hc p hp
    exact ⟨n, order, hsource, (h.ready.merge_kept page hn).2⟩
  · refine List.forall_mem_append.mpr ⟨fun c hc p hp => ?_, List.forall_mem_singleton.mpr fun p hp => ?_⟩
    · obtain ⟨n, order, -, hn⟩ := h.copied c hc p hp
      have hold := (h.ready.merge_kept page hn).1
      rcases e.provenance.get?_recordClone (e.graph.merge page).1 page.name p.2 with ⟨-, hget⟩ | ⟨s, hs, -⟩
      · exact hget.trans (h.origins c hc p hp)
      · exact absurd (List.mem_map_of_mem (f := Prod.snd) hs) hold
    · rcases e.provenance.get?_recordClone (e.graph.merge page).1 page.name p.2 with
        ⟨hnew, -⟩ | ⟨s, hs, hget⟩
      · exact absurd (List.mem_map_of_mem (f := Prod.snd) hp) hnew
      · have hsource := congrArg Prod.fst (List.inj_on_of_nodup_map (htidy.nodup_merge page) hs hp rfl)
        exact hsource ▸ hget
  · obtain ⟨new, hlinks, hnew⟩ := htidy.merge_links page
    change (((e.graph.merge page).2.links).map Link.bare).Perm _
    rw [hlinks, List.map_append, List.flatMap_append, List.flatMap_singleton]
    exact (hnew.append h.links).trans List.perm_append_comm

theorem merged_joins (function : String) (pages : List ScriptGraph) :
    ∃ copies, copies.map Prod.fst = pages ∧
      Joins function copies [] (pages.foldl EventGraph.mergePage (start function)) := by
  induction pages using List.reverseRecOn with
  | nil => exact ⟨[], rfl, start_joins function⟩
  | append_singleton pages page ih =>
      obtain ⟨copies, hpages, hjoins⟩ := ih
      rw [List.foldl_append]
      exact ⟨_, by rw [List.map_append, hpages]; rfl, hjoins.mergePage page⟩

/-- An empty event comes last and has no links. -/
theorem Joins.addNode (h : Joins function copies made e) (s : Signature) (o : Origin)
    (events : OrderedMap String EventInfo) :
    Joins function copies (made ++ [(s, (e.graph.addNode (emptyEvent s)).1)])
      { e with
        graph := (e.graph.addNode (emptyEvent s)).2
        provenance := e.provenance.recordAlias (e.graph.addNode (emptyEvent s)).1 o
        events } := by
  have hkept {k : NodeId} {m : ScriptNode} (hm : e.graph.node? k = some m) :=
    h.ready.tidy.node?_addNode_of_some (emptyEvent s) hm
  refine ⟨h.ready.addNode _, ?_, ?_, h.sources, ?_, ?_, ?_, ?_⟩
  · rw [h.ready.addNode_nodeIds, h.nodeIds]
    simp
  · obtain ⟨order, hn⟩ := h.entry
    exact ⟨order, (hkept hn).2⟩
  · intro c hc p hp
    obtain ⟨n, order, hsource, hn⟩ := h.copied c hc p hp
    exact ⟨n, order, hsource, (hkept hn).2⟩
  · intro c hc p hp
    obtain ⟨n, order, -, hn⟩ := h.copied c hc p hp
    rw [Provenance.recordAlias, Provenance.get?_record, if_neg (hkept hn).1]
    exact h.origins c hc p hp
  · refine List.forall_mem_append.mpr ⟨fun m hm => ?_,
      List.forall_mem_singleton.mpr ⟨e.graph.freshOrder, ?_⟩⟩
    · obtain ⟨order, hn⟩ := h.empty m hm
      exact ⟨order, (hkept hn).2⟩
    · rw [h.ready.tidy.node?_addNode, if_pos rfl]
  · rw [h.ready.tidy.addNode_links]
    exact h.links

def eventInfo? (p : Provenance) (x : NodeId × ScriptNode) : Option EventInfo :=
  x.2.kind.eventSpec?.map fun spec => ⟨x.1, spec, eventParams x.2, p.get? x.1⟩

/-- The first event of a name is listed, and each later one is reported. -/
theorem foldl_addEvent_firsts (hevents : e.events = ∅) (nodes : List (NodeId × ScriptNode)) :
    ∃ events, nodes.foldl addEvent (e, []) = ({ e with events },
        (repeats (fun i => i.spec.name) (nodes.filterMap (eventInfo? e.provenance))).map
          fun i => (.duplicateEvent i.spec.name, i.node)) ∧
      events.HoldsFirsts (fun i => i.spec.name) id (nodes.filterMap (eventInfo? e.provenance)) := by
  induction nodes using List.reverseRecOn with
  | nil =>
      refine ⟨∅, ?_, rfl⟩
      rw [← hevents]
      rfl
  | append_singleton nodes x ih =>
      obtain ⟨events, hfold, hfirsts⟩ := ih
      rw [List.foldl_append, hfold, List.filterMap_append, List.foldl_cons, List.foldl_nil, addEvent]
      cases hspec : x.2.kind.eventSpec? with
      | none =>
          have hnone : [x].filterMap (eventInfo? e.provenance) = [] := by simp [eventInfo?, hspec]
          rw [hnone, List.append_nil]
          exact ⟨events, rfl, hfirsts⟩
      | some spec =>
          have hsome : [x].filterMap (eventInfo? e.provenance) =
              [⟨x.1, spec, eventParams x.2, e.provenance.get? x.1⟩] := by
            simp [eventInfo?, hspec]
          have hnext := hfirsts.concat ⟨x.1, spec, eventParams x.2, e.provenance.get? x.1⟩
          rw [hsome, repeats_concat, List.map_append]
          refine ⟨_, ?_, hnext⟩
          by_cases hold : events.contains spec.name = true
          · simp only [hold, if_true, hfirsts.contains.mp hold, List.map_cons, List.map_nil]
          · simp only [hold, if_false, mt hfirsts.contains.mpr hold, List.map_nil, List.append_nil]
            rfl

/-- The events of the pages by their copies, in the order of the pages and then of authoring. -/
def occurrences (copies : List (ScriptGraph × CloneMap)) : List EventInfo :=
  copies.flatMap fun c => c.2.pairs.filterMap fun p => (c.1.node? p.1).bind fun n =>
    n.kind.eventSpec?.map fun spec =>
    ⟨p.2, spec, eventParams n, some { source := ⟨c.1.name, p.1⟩ }⟩

theorem Joins.occurrences (h : Joins function copies [] e) :
    e.graph.nodes.filterMap (eventInfo? e.provenance) = EventGraph.occurrences copies := by
  obtain ⟨order, hentry⟩ := h.entry
  rw [Graph.filterMap_nodes, h.nodeIds, List.filterMap_cons_none (by rw [hentry]; rfl),
    List.map_nil, List.append_nil,
    List.filterMap_flatMap]
  refine List.flatMap_congr fun c hc => ?_
  rw [CloneMap.copies, List.filterMap_map]
  refine List.filterMap_congr fun p hp => ?_
  obtain ⟨n, order, hsource, hn⟩ := h.copied c hc p hp
  rw [Function.comp_apply, hn, hsource]
  simp only [Option.bind_some, eventInfo?, h.origins c hc p hp]
  rfl

/-- The event that is listed for an interface function. -/
def madeInfo (function : String) (entry : NodeId) (m : Signature × NodeId) : EventInfo :=
  ⟨m.2, { name := m.1.name, isOverride := true, flags := .event }, eventParams (emptyEvent m.1),
    some (entryOrigin function entry)⟩

/-- The function could be an event, and neither an event nor a function implements it. -/
def lacks (schema : Schema) (events : OrderedMap String EventInfo) (s : Signature) : Bool :=
  s.canBeEvent && !events.contains s.name && !schema.functions.contains s.name

theorem addInterfaceEvent_eq (schema : Schema) (e : EventGraph) (s : Signature) :
    addInterfaceEvent schema e s =
    if lacks schema e.events s then
      { e with
        graph := (e.graph.addNode (emptyEvent s)).2
        provenance := e.provenance.recordAlias (e.graph.addNode (emptyEvent s)).1
          (entryOrigin schema.eventGraphFunction e.entry)
        events := e.events.insert s.name
          (madeInfo schema.eventGraphFunction e.entry (s, (e.graph.addNode (emptyEvent s)).1)) }
    else e := by
  have horigin : (e.provenance.recordAlias (e.graph.addNode (emptyEvent s)).1
      (entryOrigin schema.eventGraphFunction e.entry)).get?
      (e.graph.addNode (emptyEvent s)).1 = some (entryOrigin schema.eventGraphFunction e.entry) :=
    (Provenance.get?_record _ _ _ _).trans (if_pos rfl)
  have hskip : (!s.canBeEvent || e.events.contains s.name || schema.functions.contains s.name) =
      !lacks schema e.events s := by
    simp [lacks]
  simp only [addInterfaceEvent, hskip, horigin]
  cases lacks schema e.events s <;> rfl

/-- Every function that was lacking gets one empty event, also if several interfaces have it. -/
theorem foldl_addInterfaceEvent_joins (schema : Schema)
    (h : Joins schema.eventGraphFunction copies [] e) (l : List Signature) :
    ∃ made, Joins schema.eventGraphFunction copies made (l.foldl (addInterfaceEvent schema) e) ∧
      (l.foldl (addInterfaceEvent schema) e).entry = e.entry ∧
      made.map Prod.fst = firsts Signature.name (l.filter (lacks schema e.events)) ∧
      (l.foldl (addInterfaceEvent schema) e).events.entries =
        e.events.entries ++ made.map fun m =>
          (m.1.name, madeInfo schema.eventGraphFunction e.entry m) := by
  induction l using List.reverseRecOn with
  | nil => exact ⟨[], h, rfl, rfl, (List.append_nil _).symm⟩
  | append_singleton l s ih =>
      obtain ⟨made, hjoins, hentry, hmade, hevents⟩ := ih
      rw [List.foldl_append, List.foldl_cons, List.foldl_nil, addInterfaceEvent_eq]
      generalize l.foldl (addInterfaceEvent schema) e = e' at hjoins hentry hevents
      have hcontains : e'.events.contains s.name =
          (e.events.contains s.name ||
            decide (s.name ∈ (l.filter (lacks schema e.events)).map Signature.name)) := by
        rw [Bool.eq_iff_iff, Bool.or_eq_true, decide_eq_true_iff, ← List.mem_eraseDups,
          ← map_firsts, ← hmade,
          OrderedMap.contains_iff_mem_keys, OrderedMap.contains_iff_mem_keys, OrderedMap.keys,
          hevents, List.map_append,
          List.mem_append, List.map_map, List.map_map]
        rfl
      -- What is lacking now was lacking at first, and no function of its name was met since.
      have hlacks : firsts Signature.name ((l ++ [s]).filter (lacks schema e.events)) =
          firsts Signature.name (l.filter (lacks schema e.events)) ++
            if lacks schema e'.events s then [s] else [] := by
        have hnow : lacks schema e'.events s = (lacks schema e.events s &&
            !decide (s.name ∈ (l.filter (lacks schema e.events)).map Signature.name)) := by
          rw [lacks, hcontains, Bool.not_or, lacks, ← Bool.and_assoc, Bool.and_right_comm]
        rw [List.filter_append, List.filter_singleton, hnow]
        cases lacks schema e.events s with
        | false => simp
        | true =>
            rw [cond_true, firsts_concat]
            by_cases hold : s.name ∈ (l.filter (lacks schema e.events)).map Signature.name <;> simp [hold]
      rw [hlacks]
      split
      · next hnew =>
          have hfree : e'.events.contains s.name = false := by
            simp only [lacks, Bool.and_eq_true, Bool.not_eq_true'] at hnew
            exact hnew.1.2
          refine ⟨_, hjoins.addNode s _ _, hentry, ?_, ?_⟩
          · rw [List.map_append, hmade]
            rfl
          · refine (OrderedMap.entries_insert_of_new hfree _).trans ?_
            rw [hevents, List.map_append, List.append_assoc, ← hentry]
            rfl
      · rw [List.append_nil]
        exact ⟨made, hjoins, hentry, hmade, hevents⟩

theorem Joins.occurrence_names (h : Joins function copies made e) :
    (EventGraph.occurrences copies).map (fun i => i.spec.name) =
      (copies.map Prod.fst).flatMap fun page => page.events.map fun e => e.2.name := by
  rw [EventGraph.occurrences, List.map_flatMap, List.flatMap_map]
  refine List.flatMap_congr fun c hc => ?_
  rw [Graph.events, Graph.filterMap_nodes, ← h.sources c hc, List.filterMap_map, List.map_filterMap,
    List.map_filterMap]
  refine List.filterMap_congr fun p _ => ?_
  rw [Function.comp_apply]
  cases c.1.node? p.1 with
  | none => rfl
  | some n =>
      simp only [Option.bind_some, Option.map_map]
      rfl

/-- The event graph of a unit, by the copies of its pages and the events that were made up. -/
structure Unites (u : CompilationUnit) (copies : List (ScriptGraph × CloneMap))
    (made : List (Signature × NodeId)) (found : EventGraph × List (Issue × NodeId)) :
    Prop extends Joins (Schema.eventGraphName u.name) copies made found.1 where
  pages : copies.map Prod.fst = u.eventGraphs
  distinct : found.1.graph.nodeIds.Nodup
  /-- No link between two nodes of a page is lost. -/
  preserved : ∀ c ∈ copies, ∀ l, (c.2.image? l).isSome =
    (c.1.contains l.source.node && c.1.contains l.target.node)
  required : made.map Prod.fst =
    firsts Signature.name ((u.interfaces.flatMap InterfaceDecl.functions).filter fun s =>
    s.outputs.isEmpty && s.name ∉ Schema.eventNames u.eventGraphs &&
      s.name ∉ u.functionGraphs.map Graph.functionName)
  events : found.1.events.entries =
    (firsts (fun i => i.spec.name) (occurrences copies)).map (fun i => (i.spec.name, i)) ++
      made.map fun m => (m.1.name, madeInfo (Schema.eventGraphName u.name) found.1.entry m)
  issues : found.2 = (repeats (fun i => i.spec.name) (occurrences copies)).map fun i =>
    (.duplicateEvent i.spec.name, i.node)
  implemented : ∀ i ∈ u.interfaces, ∀ s ∈ i.functions, s.outputs = [] →
    found.1.events.contains s.name = true ∨ ∃ g ∈ u.functionGraphs, g.functionName = s.name

theorem Joins.ofEvents (h : Joins function copies made e) (events : OrderedMap String EventInfo) :
    Joins function copies made { e with events } :=
  ⟨h.ready, h.nodeIds, h.entry, h.sources, h.copied, h.origins, h.empty, h.links⟩

theorem ofUnit_implements (u : CompilationUnit) {i : InterfaceDecl} (hi : i ∈ u.interfaces)
    {s : Signature} (hs : s ∈ i.functions) (hcan : s.canBeEvent = true) :
    (ofUnit u (Schema.ofUnit u).1).1.events.contains s.name = true ∨
      ∃ g ∈ u.functionGraphs, g.functionName = s.name := by
  rw [← Schema.contains_functions, contains_ofUnit]
  cases hfunction : (Schema.ofUnit u).1.functions.contains s.name with
  | true => exact Or.inr rfl
  | false =>
      by_cases hevent : s.name ∈ Schema.eventNames u.eventGraphs
      · exact Or.inl (Or.inl hevent)
      · exact Or.inl (Or.inr ⟨⟨s, List.mem_flatMap.mpr ⟨i, hi, hs⟩, hcan, rfl⟩, hevent, hfunction⟩)

/-- Consolidation loses nothing and adds nothing but the entry and the events that interfaces lack. -/
theorem ofUnit_unites (u : CompilationUnit) :
    ∃ copies made, Unites u copies made (ofUnit u (Schema.ofUnit u).1) := by
  have hempty := merged_events u (Schema.ofUnit u).1
  have himplements (i : InterfaceDecl) (hi : i ∈ u.interfaces) (s : Signature)
      (hs : s ∈ i.functions) := ofUnit_implements u hi hs
  obtain ⟨copies, hpages, hmerged⟩ := merged_joins (Schema.ofUnit u).1.eventGraphFunction u.eventGraphs
  simp only [ofUnit] at himplements ⊢
  generalize u.eventGraphs.foldl mergePage (start (Schema.ofUnit u).1.eventGraphFunction) =
    merged at hempty himplements hmerged
  obtain ⟨events, hfold, hfirsts⟩ := foldl_addEvent_firsts hempty merged.graph.nodes
  rw [hmerged.occurrences] at hfold hfirsts
  simp only [hfold] at himplements ⊢
  obtain ⟨made, hjoins, hentry, hmade, hevents⟩ :=
    foldl_addInterfaceEvent_joins (Schema.ofUnit u).1 (hmerged.ofEvents events)
    (u.interfaces.flatMap InterfaceDecl.functions)
  rw [Schema.eventGraphFunction_ofUnit] at hjoins hevents
  refine ⟨copies, made, hjoins, hpages, Graph.nodup_nodes _,
    fun c hc l => Graph.isSome_image? (hjoins.sources c hc) l, ?_, ?_, rfl, ?_⟩
  · rw [hmade]
    refine congrArg _ (List.filter_congr fun s _ => ?_)
    have hevent : events.contains s.name = decide (s.name ∈ Schema.eventNames u.eventGraphs) := by
      rw [Bool.eq_iff_iff, decide_eq_true_iff, hfirsts.contains, hmerged.occurrence_names, hpages,
        Schema.eventNames,
        List.mem_eraseDups]
    have hfunction : (Schema.ofUnit u).1.functions.contains s.name =
        decide (s.name ∈ u.functionGraphs.map Graph.functionName) := by
      rw [Bool.eq_iff_iff, decide_eq_true_iff, Schema.contains_functions, List.mem_map]
    rw [lacks, hevent, hfunction, decide_not, decide_not]
    rfl
  · rw [hevents, hentry, hfirsts]
    rfl
  · exact fun i hi s hs hnone => himplements i hi s hs (List.isEmpty_iff.mpr hnone)

end EventGraph

end VisualScript
