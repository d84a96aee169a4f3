import VisualScript.Proofs.Event.Consolidation
import VisualScript.Proofs.Graph.Copies

namespace VisualScript

def Graph.Announces (g : ScriptGraph) (name : String) : Prop :=
  ∃ k n spec, g.node? k = some n ∧ n.kind = .event spec ∧ spec.name = name

namespace Graph

variable {g : ScriptGraph} {name : String}

theorem mem_events {x : NodeId × EventSpec} :
    x ∈ g.events ↔ ∃ n, g.node? x.1 = some n ∧ n.kind = .event x.2 := by
  simp only [events, List.mem_filterMap, Option.map_eq_some_iff, EventGraph.eventSpec?_eq_some]
  constructor
  · rintro ⟨⟨k, n⟩, hn, spec, hk, rfl⟩
    exact ⟨n, mem_nodes.mp hn, hk⟩
  · rintro ⟨n, hn, hk⟩
    exact ⟨(x.1, n), mem_nodes.mpr hn, x.2, hk, rfl⟩

theorem mem_events_names : name ∈ g.events.map (fun e => e.2.name) ↔ g.Announces name := by
  constructor
  · intro h
    obtain ⟨⟨k, spec⟩, hx, rfl⟩ := List.mem_map.mp h
    obtain ⟨n, hn, hk⟩ := mem_events.mp hx
    exact ⟨k, n, spec, hn, hk, rfl⟩
  · rintro ⟨k, n, spec, hn, hk, rfl⟩
    exact List.mem_map.mpr ⟨(k, spec), mem_events.mpr ⟨n, hn, hk⟩, rfl⟩

theorem Tidy.announces_merge (h : g.Tidy) (page : ScriptGraph) :
    (g.merge page).2.Announces name ↔ g.Announces name ∨ page.Announces name := by
  constructor
  · rintro ⟨k, m, spec, hm, hk, hname⟩
    rcases merge_cases g page k m hm with hm | ⟨s, n, hs, -, he⟩
    · exact Or.inl ⟨k, m, spec, hm, hk, hname⟩
    · rw [he] at hk
      exact Or.inr ⟨s, n, spec, mem_nodes.mp hs, hk, hname⟩
  · rintro (⟨k, n, spec, hn, hk, hname⟩ | ⟨s, n, spec, hn, hk, hname⟩)
    · have hcopy : k ∉ (g.merge page).1.copies := fun hc => by
        rw [h.merge_fresh page hc] at hn
        cases hn
      exact ⟨k, n, spec, (h.node?_merge page hcopy).trans hn, hk, hname⟩
    · obtain ⟨k, hcopy⟩ := g.exists_merge_copy? hn
      obtain ⟨n', order, hn', hnode⟩ := h.merge_copy? hcopy
      cases hn.symm.trans hn'
      exact ⟨k, _, spec, hnode, hk, hname⟩

end Graph

theorem Schema.mem_eventNames {pages : List ScriptGraph} {name : String} :
    name ∈ eventNames pages ↔ ∃ page ∈ pages, page.Announces name := by
  rw [eventNames, List.mem_eraseDups, List.mem_flatMap]
  exact exists_congr fun page => and_congr_right fun _ => Graph.mem_events_names

namespace EventGraph

variable {e : EventGraph} {name : String}

/-- An interface has a function of that name that could be an event, and neither a page nor a function
implements it. -/
structure Invents (u : CompilationUnit) (schema : Schema) (name : String) : Prop where
  required : ∃ s ∈ u.interfaces.flatMap InterfaceDecl.functions, s.canBeEvent = true ∧ s.name = name
  event : name ∉ Schema.eventNames u.eventGraphs
  function : schema.functions.contains name = false

theorem contains_addEvent (found : EventGraph × List (Issue × NodeId)) (x : NodeId × ScriptNode) :
    (addEvent found x).1.events.contains name = true ↔
      found.1.events.contains name = true ∨ ∃ spec, x.2.kind = .event spec ∧ spec.name = name := by
  obtain ⟨e, issues⟩ := found
  simp only [addEvent, ← eventSpec?_eq_some]
  cases x.2.kind.eventSpec? with
  | none => simp
  | some spec =>
      simp only [Option.some.injEq, exists_eq_left']
      split
      · next h => exact ⟨Or.inl, fun hc => hc.elim id fun he => he ▸ h⟩
      · rw [OrderedMap.contains_insert]
        exact ⟨fun hc => hc.symm.imp_right Eq.symm, fun hc => hc.symm.imp_left Eq.symm⟩

theorem contains_foldl_addEvent (nodes : List (NodeId × ScriptNode))
    (found : EventGraph × List (Issue × NodeId)) :
    (nodes.foldl addEvent found).1.events.contains name = true ↔
      found.1.events.contains name = true ∨ ∃ x ∈ nodes, ∃ spec, x.2.kind = .event spec ∧
        spec.name = name := by
  induction nodes generalizing found with
  | nil => simp
  | cons x rest ih =>
      rw [List.foldl_cons, ih, contains_addEvent, List.exists_mem_cons_iff, or_assoc]

theorem contains_addInterfaceEvent (schema : Schema) (e : EventGraph) (s : Signature) :
    (addInterfaceEvent schema e s).events.contains name = true ↔ e.events.contains name = true ∨
      s.canBeEvent = true ∧ schema.functions.contains name = false ∧ s.name = name := by
  rw [addInterfaceEvent]
  split
  · next h =>
    simp only [Bool.or_eq_true, Bool.not_eq_true'] at h
    refine ⟨Or.inl, fun hc => hc.elim id ?_⟩
    rintro ⟨hcan, hfunction, rfl⟩
    rw [hcan, hfunction] at h
    exact (h.resolve_right Bool.false_ne_true).resolve_left Bool.false_ne_true.symm
  · next h =>
    simp only [Bool.or_eq_true, Bool.not_eq_true', not_or, Bool.not_eq_false, Bool.not_eq_true] at h
    rw [OrderedMap.contains_insert]
    constructor
    · rintro (rfl | hc)
      · exact Or.inr ⟨h.1.1, h.2, rfl⟩
      · exact Or.inl hc
    · rintro (hc | ⟨-, -, rfl⟩)
      · exact Or.inr hc
      · exact Or.inl rfl

theorem contains_foldl_addInterfaceEvent (schema : Schema) (l : List Signature) (e : EventGraph) :
    (l.foldl (addInterfaceEvent schema) e).events.contains name = true ↔ e.events.contains name = true ∨
      ∃ s ∈ l, s.canBeEvent = true ∧ schema.functions.contains name = false ∧ s.name = name := by
  induction l generalizing e with
  | nil => simp
  | cons s rest ih =>
      rw [List.foldl_cons, ih, contains_addInterfaceEvent, List.exists_mem_cons_iff, or_assoc]

variable (u : CompilationUnit) (schema : Schema)

theorem merged_announces :
    (u.eventGraphs.foldl mergePage (start schema.eventGraphFunction)).graph.Announces name ↔
    name ∈ Schema.eventNames u.eventGraphs := by
  have hstart : ¬ (start schema.eventGraphFunction).graph.Announces name := by
    rintro ⟨k, n, spec, hn, hk, -⟩
    rcases Graph.addNode_cases { name := schema.eventGraphFunction }
      (entryNode schema.eventGraphFunction) k n hn with hn | ⟨-, rfl⟩
    · cases hn
    · cases hk
  have hrun (pages : List ScriptGraph) : ∀ e : EventGraph, e.graph.Tidy →
      ((pages.foldl mergePage e).graph.Announces name ↔ e.graph.Announces name ∨ ∃ page ∈ pages,
        page.Announces name) := by
    induction pages with
    | nil => simp
    | cons page rest ih =>
        intro e htidy
        have hmerge : (mergePage e page).graph = (e.graph.merge page).2 := rfl
        rw [List.foldl_cons, ih _ (htidy.merge page), hmerge, htidy.announces_merge,
          List.exists_mem_cons_iff, or_assoc]
  rw [hrun u.eventGraphs _ (start_headed _).tidy, Schema.mem_eventNames]
  exact or_iff_right hstart

/-- The names of events: those of the pages, and those that are made up for interfaces. -/
theorem contains_ofUnit : (ofUnit u schema).1.events.contains name = true ↔
    name ∈ Schema.eventNames u.eventGraphs ∨ Invents u schema name := by
  simp only [ofUnit]
  rw [contains_foldl_addInterfaceEvent, contains_foldl_addEvent, merged_events]
  have hpages : (∃ x ∈ (u.eventGraphs.foldl mergePage (start schema.eventGraphFunction)).graph.nodes,
      ∃ spec, x.2.kind = .event spec ∧ spec.name = name) ↔ name ∈ Schema.eventNames u.eventGraphs := by
    rw [← merged_announces u schema]
    constructor
    · rintro ⟨⟨k, n⟩, hn, spec, hk⟩
      exact ⟨k, n, spec, Graph.mem_nodes.mp hn, hk⟩
    · rintro ⟨k, n, spec, hn, hk⟩
      exact ⟨(k, n), Graph.mem_nodes.mpr hn, spec, hk⟩
  rw [hpages]
  constructor
  · rintro ((hempty | hname) | ⟨s, hs, hcan, hfunction, hname⟩)
    · cases hempty
    · exact Or.inl hname
    · by_cases hevent : name ∈ Schema.eventNames u.eventGraphs
      · exact Or.inl hevent
      · exact Or.inr ⟨⟨s, hs, hcan, hname⟩, hevent, hfunction⟩
  · rintro (hname | hinvents)
    · exact Or.inl (Or.inr hname)
    · obtain ⟨s, hs, hcan, hname⟩ := hinvents.required
      exact Or.inr ⟨s, hs, hcan, hinvents.function, hname⟩

end EventGraph

end VisualScript
