import VisualScript.Graph.Merge

namespace VisualScript

namespace Node

variable {κ : Type} {n m : Node κ}

/-- A node without the types and defaults of its ports. This is what rewiring leaves alone. -/
def outline (n : Node κ) : Node κ :=
  { n with ports := n.ports.map fun p => ⟨p.name, p.direction, p.role, .wildcard, none⟩ }

theorem kind_eq_of_outline (h : n.outline = m.outline) : n.kind = m.kind := by
  have hk := congrArg Node.kind h
  exact hk

theorem order_eq_of_outline (h : n.outline = m.outline) : n.order = m.order := by
  have ho := congrArg Node.order h
  exact ho

theorem isPure_eq_of_outline (h : n.outline = m.outline) : n.isPure = m.isPure := by
  have hp := congrArg Node.isPure h
  exact hp

end Node

namespace Graph

variable {κ : Type} (g : Graph κ) {id : NodeId} {n : Node κ}

theorem node?_eq_some {g : Graph κ} : g.node? id = some n ↔ g.slots[id]? = some (some n) :=
  Option.join_eq_some_iff

/-- What holds of every slot that is in use holds of every node. -/
theorem forall_node_of_slots {g : Graph κ} {P : Node κ → Prop} [DecidablePred P]
    (h : g.slots.all (fun slot => slot.all fun n => P n) = true) (id : NodeId) (n : Node κ)
    (hn : g.node? id = some n) : P n := by
  have hslot := List.all_eq_true.mp h _ (List.mem_of_getElem? (node?_eq_some.mp hn))
  simpa using hslot

theorem node?_congr {g g' : Graph κ} (h : g'.slots = g.slots) (id : NodeId) :
    g'.node? id = g.node? id := by
  rw [node?, node?, h]

theorem contains_iff {g : Graph κ} : g.contains id = true ↔ ∃ n, g.node? id = some n :=
  Option.isSome_iff_exists

/-- Two graphs that differ in their links only. -/
structure Rewired (g g' : Graph κ) : Prop where
  slots : g'.slots = g.slots
  nextOrder : g'.nextOrder = g.nextOrder
  torn : g'.torn = g.torn

variable {g} in
theorem Rewired.trans {g' g'' : Graph κ} (h : g.Rewired g') (h' : g'.Rewired g'') : g.Rewired g'' :=
  ⟨h'.slots.trans h.slots, h'.nextOrder.trans h.nextOrder, h'.torn.trans h.torn⟩

theorem rewired_removeLink (id : LinkId) : g.Rewired (g.removeLink id) := by
  rw [removeLink]
  split <;> exact ⟨rfl, rfl, rfl⟩

theorem rewired_disconnect (p : PortRef) : g.Rewired (g.disconnect p) := by
  rw [disconnect]
  induction g.edges p generalizing g with
  | nil => exact ⟨rfl, rfl, rfl⟩
  | cons e rest ih => exact (g.rewired_removeLink e.1).trans (ih _)

theorem disconnect_slots (p : PortRef) : (g.disconnect p).slots = g.slots := (g.rewired_disconnect p).slots

theorem connect_cases {g g' : Graph κ} {a b : PortRef} {l : LinkId} (h : g.connect a b = .ok (l, g')) :
    ∃ source target role, g.checkLink a b = .ok (source, target, role) ∧
      ((∃ e, (g.edges source).find? (fun e => e.2 = target) = some e ∧ g' = g) ∨
        ((g.edges source).find? (fun e => e.2 = target) = none ∧
          g' = (g.addLink source target role).2)) := by
  unfold connect at h
  cases hc : g.checkLink a b with
  | error e => simp [hc] at h
  | ok r =>
      obtain ⟨source, target, role⟩ := r
      simp only [hc] at h
      refine ⟨source, target, role, rfl, ?_⟩
      cases hf : (g.edges source).find? fun e => e.2 = target with
      | some e =>
          simp only [hf, Except.ok.injEq, Prod.mk.injEq] at h
          exact Or.inl ⟨e, rfl, h.2.symm⟩
      | none =>
          simp only [hf, Except.ok.injEq] at h
          exact Or.inr ⟨rfl, by rw [h]⟩

theorem rewired_connect {g g' : Graph κ} {a b : PortRef} {l : LinkId}
    (h : g.connect a b = .ok (l, g')) : g.Rewired g' := by
  obtain ⟨source, target, role, _, ⟨_, _, rfl⟩ | ⟨_, rfl⟩⟩ := connect_cases h <;> exact ⟨rfl, rfl, rfl⟩

theorem connect_slots {g g' : Graph κ} {a b : PortRef} {l : LinkId} (h : g.connect a b = .ok (l, g')) :
    g'.slots = g.slots := (rewired_connect h).slots

theorem rewired_copyLinkList (map : CloneMap) (links : List Link) :
    g.Rewired (copyLinkList map g links) := by
  induction links generalizing g with
  | nil => exact ⟨rfl, rfl, rfl⟩
  | cons l rest ih =>
      rw [copyLinkList]
      split
      · next s t _ _ =>
          have hadd : g.Rewired (g.addLink ⟨s, l.source.index⟩ ⟨t, l.target.index⟩ l.role).2 :=
            ⟨rfl, rfl, rfl⟩
          exact hadd.trans (ih _)
      · exact ih g

theorem copyLinkList_slots (map : CloneMap) (links : List Link) :
    (copyLinkList map g links).slots = g.slots :=
  (g.rewired_copyLinkList map links).slots

theorem clearThread_slots (d : Direction) (id : NodeId) (fuel : Nat) :
    (clearThread d id fuel g).slots = g.slots := by
  induction fuel generalizing g with
  | zero => rfl
  | succ fuel ih =>
      rw [clearThread]
      split
      · rfl
      · split
        · rw [ih, (g.rewired_removeLink _).slots]
        · rfl

theorem set_none_of_vacant (h : g.contains id = false) : g.slots.set id none = g.slots := by
  apply List.ext_getElem?
  intro i
  rw [List.getElem?_set]
  split
  · next he =>
      subst he
      split
      · next hl =>
          cases hs : g.slots[id]? with
          | none => simp only [List.getElem?_eq_none_iff] at hs; omega
          | some s =>
              cases s with
              | none => rfl
              | some n => simp [contains, node?, hs] at h
      · next hl => exact (List.getElem?_eq_none_iff.mpr (by omega)).symm
  · rfl

theorem removeNode_slots (id : NodeId) : (g.removeNode id).slots = g.slots.set id none := by
  rw [removeNode]
  cases hc : g.contains id with
  | false => exact (set_none_of_vacant g hc).symm
  | true =>
      simp only [Bool.not_true, Bool.false_eq_true, if_false]
      split
      · rw [unthreadNode]
        split <;> simp only [tear, clearThread_slots]
      · rfl

theorem node?_removeNode (id k : NodeId) :
    (g.removeNode id).node? k = if k = id then none else g.node? k := by
  rw [node?, removeNode_slots, List.getElem?_set]
  by_cases h : k = id
  · subst h
    simp only [if_true]
    split <;> rfl
  · simp only [h, if_false, Ne.symm h]
    rfl

theorem node?_modifyNode (id k : NodeId) (f : Node κ → Node κ) :
    (g.modifyNode id f).node? k = (g.node? k).map fun n => if k = id then f n else n := by
  rw [node?, modifyNode, List.getElem?_modify, node?]
  by_cases h : id = k
  · subst h
    cases g.slots[id]? <;> simp
  · have hk : ¬ k = id := fun e => h e.symm
    cases g.slots[k]? <;> simp [h, hk]

/-- Setting a default changes nothing that does not depend on defaults. -/
theorem map_setDefault {φ : Port → Port}
    (hφ : ∀ (port : Port) (d : Option String), φ { port with default := d } = φ port) (p : PortRef)
    (value : Option String) (k : NodeId) :
    ((g.setDefault p value).node? k).map (fun n => { n with ports := n.ports.map φ }) =
      (g.node? k).map fun n => { n with ports := n.ports.map φ } := by
  rw [setDefault, node?_modifyNode, Option.map_map]
  congr 1
  funext n
  by_cases h : k = p.node
  · simp only [Function.comp_apply, h, if_true]
    congr 1
    apply List.ext_getElem?
    intro i
    simp only [List.getElem?_map, List.getElem?_modify]
    cases n.ports[i]? <;> simp
    split <;> simp [hφ]
  · simp [h]

theorem outline_setDefault (p : PortRef) (value : Option String) (k : NodeId) :
    ((g.setDefault p value).node? k).map Node.outline = (g.node? k).map Node.outline :=
  g.map_setDefault (fun _ _ => rfl) p value k

theorem place_cases (n : Node κ) (k : NodeId) (m : Node κ) (h : (g.place n).2.node? k = some m) :
    g.node? k = some m ∨ (k = (g.place n).1 ∧ m = n) := by
  have hset (id : NodeId) (h : (g.slots.set id (some n))[k]? = some (some m)) :
      g.node? k = some m ∨ (k = id ∧ m = n) := by
    rw [List.getElem?_set] at h
    by_cases hk : id = k
    · subst hk
      simp only [if_true] at h
      split at h
      · simp only [Option.some.injEq] at h
        exact Or.inr ⟨rfl, h.symm⟩
      · cases h
    · simp only [hk, if_false] at h
      exact Or.inl (node?_eq_some.mpr h)
  have hend (h : (g.slots ++ [some n])[k]? = some (some m)) : g.node? k = some m ∨
      (k = g.slots.length ∧ m = n) := by
    rcases Nat.lt_trichotomy k g.slots.length with hk | hk | hk
    · rw [List.getElem?_append_left hk] at h
      exact Or.inl (node?_eq_some.mpr h)
    · simp only [hk, List.getElem?_concat_length, Option.some.injEq] at h
      exact Or.inr ⟨hk, h.symm⟩
    · have hl : (g.slots ++ [some n]).length ≤ k := by rw [List.length_append]; exact hk
      rw [List.getElem?_eq_none hl] at h
      cases h
  unfold place at h ⊢
  cases ht : g.threads with
  | none =>
      cases hv : g.vacant with
      | nil => simp only [ht, hv] at h; exact hend (node?_eq_some.mp h)
      | cons id rest => simp only [ht, hv] at h; exact hset id (node?_eq_some.mp h)
  | some t =>
      cases hs : t.spare with
      | none => simp only [ht, hs] at h ⊢; exact hend (node?_eq_some.mp h)
      | some id =>
          simp only [ht, hs] at h ⊢
          split at h
          · exact Or.inl h
          · next ha =>
              simp only [ha]
              cases ho : t.occupy id with
              | none => simp only [ho] at h; exact Or.inl h
              | some t' => simp only [ho] at h; exact hset id (node?_eq_some.mp h)

theorem addNode_cases (n : Node κ) (k : NodeId) (m : Node κ) (h : (g.addNode n).2.node? k = some m) :
    g.node? k = some m ∨ (k = (g.addNode n).1 ∧ m = { n with order := g.freshOrder }) :=
  place_cases g { n with order := g.freshOrder } k m h

theorem copyNodes_cases (l : List (NodeId × Node κ)) (k : NodeId) (m : Node κ)
    (h : (g.copyNodes l).2.node? k = some m) :
    g.node? k = some m ∨ ∃ s n, (s, n) ∈ l ∧ (s, k) ∈ (g.copyNodes l).1.pairs ∧
      m = { n with order := m.order } := by
  induction l generalizing g with
  | nil => exact Or.inl h
  | cons p rest ih =>
      obtain ⟨id, n⟩ := p
      rcases ih (g.addNode n).2 h with h | ⟨s, n', hs, hk, hm⟩
      · rcases addNode_cases g n k m h with h | ⟨rfl, rfl⟩
        · exact Or.inl h
        · exact Or.inr ⟨id, n, by simp, List.mem_cons_self, rfl⟩
      · exact Or.inr ⟨s, n', List.mem_cons_of_mem _ hs, List.mem_cons_of_mem _ hk, hm⟩

theorem merge_cases (other : Graph κ) (k : NodeId) (m : Node κ) (h : (g.merge other).2.node? k = some m) :
    g.node? k = some m ∨
      ∃ s n, (s, n) ∈ other.nodes ∧ (s, k) ∈ (g.merge other).1.pairs ∧
        m = { n with order := m.order } := by
  have hs : (g.merge other).2.slots = (g.copyNodes other.nodes).2.slots := copyLinkList_slots ..
  rw [node?_congr hs] at h
  exact copyNodes_cases g other.nodes k m h

theorem mem_stored {g : Graph κ} : (id, n) ∈ g.stored ↔ g.node? id = some n := by
  rw [stored, List.mem_filterMap, node?_eq_some]
  constructor
  · rintro ⟨⟨s, i⟩, hs, he⟩
    obtain ⟨m, rfl, hm⟩ := Option.map_eq_some_iff.mp he
    cases hm
    exact List.mem_zipIdx_iff_getElem?.mp hs
  · intro h
    exact ⟨(some n, id), List.mem_zipIdx_iff_getElem?.mpr h, rfl⟩

theorem mem_nodes {g : Graph κ} : (id, n) ∈ g.nodes ↔ g.node? id = some n := by
  rw [nodes, List.mem_mergeSort, mem_stored]

theorem mem_findNodes {g : Graph κ} {p : Node κ → Bool} :
    id ∈ g.findNodes p ↔ ∃ n, g.node? id = some n ∧ p n = true := by
  simp only [findNodes, List.mem_map, List.mem_filter]
  constructor
  · rintro ⟨⟨i, n⟩, ⟨hn, hp⟩, rfl⟩
    exact ⟨n, mem_nodes.mp hn, hp⟩
  · rintro ⟨n, hn, hp⟩
    exact ⟨(id, n), ⟨mem_nodes.mpr hn, hp⟩, rfl⟩

end Graph

end VisualScript
