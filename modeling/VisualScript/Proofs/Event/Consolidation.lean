import VisualScript.Proofs.Compile.Jobs
import VisualScript.Proofs.Graph.Additions
import VisualScript.Proofs.Working.Descent

namespace VisualScript

namespace EventGraph

variable {e : EventGraph}

structure Grown (function : String) (g : ScriptGraph) : Prop where
  descends : (start function).graph.Descends 0 g
  ready : g.Ready

theorem start_ready (function : String) : (start function).graph.Ready :=
  ((Graph.sound_empty function).ready rfl).addNode _

theorem start_grown (function : String) : Grown function (start function).graph := by
  have hnode : (start function).graph.node? 0 = some (entryNode function) := rfl
  refine ⟨.refl (start_ready function).tidy Nat.one_pos ⟨_, hnode, rfl, ?_⟩ (List.forall_mem_nil _),
    start_ready function⟩
  simp [entryNode, Port.execOut, Port.dataOut]

theorem Grown.addNode {function : String} {g : ScriptGraph} (h : Grown function g) (n : ScriptNode) :
    Grown function (g.addNode n).2 :=
  ⟨h.descends.addNode n, h.ready.addNode n⟩

theorem Grown.merge {function : String} {g : ScriptGraph} (h : Grown function g) (page : ScriptGraph) :
    Grown function (g.merge page).2 :=
  ⟨h.descends.merge page, h.ready.merge page⟩

/-- The events that are listed stand in the graph. -/
def Known (e : EventGraph) : Prop := ∀ (name : String) (info : EventInfo), e.events.get? name = some info →
  info.spec.name = name ∧ ∃ n, e.graph.node? info.node = some n ∧ n.kind = .event info.spec ∧
    info.params = eventParams n

def Complete (e : EventGraph) : Prop :=
  ∀ (k : NodeId) (n : ScriptNode) (spec : EventSpec), e.graph.node? k = some n →
  n.kind = .event spec → ∃ info, e.events.get? spec.name = some info ∧ info.node = k

theorem eventSpec?_eq_some {k : NodeKind} {spec : EventSpec} :
    k.eventSpec? = some spec ↔ k = .event spec := by
  cases k <;> simp [NodeKind.eventSpec?]

theorem addEvent_cases (e : EventGraph) (issues : List (Issue × NodeId)) (x : NodeId × ScriptNode) :
    (x.2.kind.eventSpec? = none ∧ addEvent (e, issues) x = (e, issues)) ∨
    (∃ issue, addEvent (e, issues) x = (e, issues ++ [(.duplicateEvent issue, x.1)])) ∨
    ∃ spec, x.2.kind = .event spec ∧ e.events.get? spec.name = none ∧ addEvent (e, issues) x =
      ({ e with events := e.events.insert spec.name ⟨x.1, spec, eventParams x.2,
        e.provenance.get? x.1⟩ }, issues) := by
  simp only [addEvent]
  cases hspec : x.2.kind.eventSpec? with
  | none => exact Or.inl ⟨rfl, rfl⟩
  | some spec =>
      refine Or.inr ?_
      simp only
      split
      · exact Or.inl ⟨spec.name, rfl⟩
      · next hnew =>
          refine Or.inr ⟨spec, eventSpec?_eq_some.mp hspec, ?_, rfl⟩
          rw [OrderedMap.contains_eq_isSome] at hnew
          exact Option.not_isSome_iff_eq_none.mp hnew

theorem Known.insert (h : e.Known) {k : NodeId} {n : ScriptNode} {spec : EventSpec}
    (hn : e.graph.node? k = some n) (hk : n.kind = .event spec) (origin : Option Origin) :
    Known { e with events := e.events.insert spec.name ⟨k, spec, eventParams n, origin⟩ } := by
  intro name info hinfo
  rw [OrderedMap.get?_insert] at hinfo
  split at hinfo
  · next he =>
      cases hinfo
      exact ⟨he.symm, n, hn, hk, rfl⟩
  · exact h name info hinfo

/-- Taking nodes in lists them all, unless a name is taken. -/
theorem foldl_addEvent {nodes : List (NodeId × ScriptNode)} (issues : List (Issue × NodeId))
    (hnodes : ∀ x ∈ nodes, e.graph.node? x.1 = some x.2) (h : e.Known) :
    (nodes.foldl addEvent (e, issues)).1.graph = e.graph ∧ (nodes.foldl addEvent (e, issues)).1.Known ∧
      issues <+: (nodes.foldl addEvent (e, issues)).2 ∧
      (∀ {name info}, e.events.get? name = some info →
        (nodes.foldl addEvent (e, issues)).1.events.get? name = some info) ∧
      ((nodes.foldl addEvent (e, issues)).2 = [] → ∀ x ∈ nodes, ∀ spec, x.2.kind = .event spec →
        ∃ info, (nodes.foldl addEvent (e, issues)).1.events.get? spec.name = some info ∧
          info.node = x.1) := by
  induction nodes generalizing e issues with
  | nil => exact ⟨rfl, h, List.prefix_rfl, fun hi => hi, fun _ => List.forall_mem_nil _⟩
  | cons x rest ih =>
      obtain ⟨hx, hrest⟩ := List.forall_mem_cons.mp hnodes
      rw [List.foldl_cons]
      rcases addEvent_cases e issues x with ⟨hnone, he⟩ | ⟨issue, he⟩ | ⟨spec, hk, hnew, he⟩ <;> rw [he]
      · obtain ⟨hgraph, hknown, hprefix, hkeeps, hall⟩ := ih _ hrest h
        refine ⟨hgraph, hknown, hprefix, hkeeps,
          fun hempty => List.forall_mem_cons.mpr ⟨fun spec hk => ?_, hall hempty⟩⟩
        rw [eventSpec?_eq_some.mpr hk] at hnone
        cases hnone
      · obtain ⟨hgraph, hknown, hprefix, hkeeps, _⟩ := ih _ hrest h
        refine ⟨hgraph, hknown, (List.prefix_append _ _).trans hprefix, hkeeps, fun hempty => ?_⟩
        rw [hempty] at hprefix
        exact absurd (List.prefix_nil.mp hprefix)
          (List.append_ne_nil_of_right_ne_nil _ (List.cons_ne_nil _ _))
      · have hlisted := h.insert hx hk (e.provenance.get? x.1)
        generalize hinsert : e.events.insert spec.name ⟨x.1, spec, eventParams x.2,
          e.provenance.get? x.1⟩ = events at hlisted ⊢
        obtain ⟨hgraph, hknown, hprefix, hkeeps, hall⟩ := ih (e := { e with events }) issues hrest hlisted
        refine ⟨hgraph, hknown, hprefix, fun {name info} hi => hkeeps ?_,
          fun hempty => List.forall_mem_cons.mpr ⟨?_, hall hempty⟩⟩
        · have hne : name ≠ spec.name := by
            rintro rfl
            rw [hnew] at hi
            cases hi
          exact hinsert ▸ (OrderedMap.get?_insert_of_ne _ _ hne).trans hi
        · intro spec' hk'
          cases hk.symm.trans hk'
          exact ⟨_, hkeeps (hinsert ▸ (OrderedMap.get?_insert _ _ _ _).trans (if_pos rfl)), rfl⟩

theorem addInterfaceEvent_cases (schema : Schema) (e : EventGraph) (s : Signature) :
    addInterfaceEvent schema e s = e ∨ (e.events.get? s.name = none ∧
      ∃ provenance info, info.node = (e.graph.addNode (emptyEvent s)).1 ∧
        (emptyEvent s).kind = .event info.spec ∧
        info.spec.name = s.name ∧ info.params = eventParams (emptyEvent s) ∧ addInterfaceEvent schema e s =
          { e with graph := (e.graph.addNode
            (emptyEvent s)).2, provenance, events := e.events.insert s.name info }) := by
  rw [addInterfaceEvent]
  split
  · exact Or.inl rfl
  · next hnew =>
      refine Or.inr ⟨?_, _, _, rfl, rfl, rfl, rfl, rfl⟩
      simp only [Bool.or_eq_true, not_or, OrderedMap.contains_eq_isSome] at hnew
      exact Option.not_isSome_iff_eq_none.mp hnew.1.2

theorem addInterfaceEvent_grown {function : String} (schema : Schema) (h : Grown function e.graph)
    (s : Signature) :
    Grown function (addInterfaceEvent schema e s).graph := by
  rcases addInterfaceEvent_cases schema e s with he | ⟨_, _, _, _, _, _, _, he⟩ <;> rw [he]
  · exact h
  · exact h.addNode _

theorem addInterfaceEvent_known (schema : Schema) (htidy : e.graph.Tidy) (h : e.Known) (s : Signature) :
    (addInterfaceEvent schema e s).Known := by
  rcases addInterfaceEvent_cases schema e s with
    he | ⟨hnew, _, info, hnode, hk, hname, hparams, he⟩ <;> rw [he]
  · exact h
  · intro name info' hinfo
    rw [OrderedMap.get?_insert] at hinfo
    split at hinfo
    · next heq =>
        cases hinfo
        exact ⟨hname.trans heq.symm, { emptyEvent s with order := e.graph.freshOrder },
          by rw [hnode, htidy.node?_addNode, if_pos rfl], hk, hparams⟩
    · obtain ⟨hname', n, hn, hrest⟩ := h name info' hinfo
      refine ⟨hname', n, ?_, hrest⟩
      have hne : info'.node ≠ (e.graph.addNode (emptyEvent s)).1 := by
        intro heq
        rw [heq, htidy.addNode_fresh] at hn
        cases hn
      rw [htidy.node?_addNode, if_neg hne]
      exact hn

theorem addInterfaceEvent_complete (schema : Schema) (htidy : e.graph.Tidy) (h : e.Complete)
    (s : Signature) :
    (addInterfaceEvent schema e s).Complete := by
  rcases addInterfaceEvent_cases schema e s with
    he | ⟨hnew, _, info, hnode, hk, hname, hparams, he⟩ <;> rw [he]
  · exact h
  · intro k n spec hn hkind
    rw [htidy.node?_addNode] at hn
    split at hn
    · next heq =>
        cases hn
        cases hk.symm.trans hkind
        exact ⟨info, by rw [OrderedMap.get?_insert, if_pos hname], hnode.trans heq.symm⟩
    · obtain ⟨info', hinfo, hnode'⟩ := h k n spec hn hkind
      have hne : spec.name ≠ s.name := by
        intro heq
        rw [heq, hnew] at hinfo
        cases hinfo
      exact ⟨info', (OrderedMap.get?_insert_of_ne _ _ hne).trans hinfo, hnode'⟩

variable (u : CompilationUnit) (schema : Schema)

theorem merged_grown :
    Grown schema.eventGraphFunction
      (u.eventGraphs.foldl mergePage (start schema.eventGraphFunction)).graph :=
  List.foldlRecOn (motive := fun e : EventGraph => Grown schema.eventGraphFunction e.graph) _ _
    (start_grown _)
    fun _ he page _ => he.merge page

theorem merged_events : (u.eventGraphs.foldl mergePage (start schema.eventGraphFunction)).events = ∅ :=
  List.foldlRecOn (motive := fun e : EventGraph => e.events = ∅) _ _ rfl fun _ he _ _ => he

theorem ofUnit_consolidated :
    Grown schema.eventGraphFunction (ofUnit u schema).1.graph ∧ (ofUnit u schema).1.Known ∧
    ((ofUnit u schema).2 = [] → (ofUnit u schema).1.Complete) := by
  have hgrown := merged_grown u schema
  have hknown : (u.eventGraphs.foldl mergePage (start schema.eventGraphFunction)).Known := by
    intro name info hinfo
    rw [merged_events] at hinfo
    cases hinfo
  simp only [ofUnit]
  generalize u.eventGraphs.foldl mergePage (start schema.eventGraphFunction) = merged at hgrown hknown
  obtain ⟨hgraph, hknown, _, _, hall⟩ := foldl_addEvent [] (fun x hx => Graph.mem_nodes.mp hx) hknown
  generalize merged.graph.nodes.foldl addEvent (merged, []) = found at hgraph hknown hall
  have hfound : Grown schema.eventGraphFunction found.1.graph := hgraph ▸ hgrown
  have hcomplete : found.2 = [] → found.1.Complete := fun hempty k n spec hn hk =>
    hall hempty (k, n) (Graph.mem_nodes.mpr (hgraph ▸ hn)) spec hk
  refine List.foldlRecOn (motive := fun e : EventGraph => Grown schema.eventGraphFunction e.graph ∧
    e.Known ∧
    (found.2 = [] → e.Complete)) _ _ ⟨hfound, hknown, hcomplete⟩ fun e he s _ => ?_
  obtain ⟨hgrown, hknown, hcomplete⟩ := he
  refine ⟨addInterfaceEvent_grown schema hgrown s,
    addInterfaceEvent_known schema hgrown.descends.tidy hknown s, fun hempty => ?_⟩
  exact addInterfaceEvent_complete schema hgrown.descends.tidy (hcomplete hempty) s

end EventGraph

end VisualScript
