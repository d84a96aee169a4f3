import Mathlib
import VisualScript.Proofs.Graph.Slots

namespace VisualScript.Graph

variable {κ : Type} {g g' : Graph κ} {port : Port} {p : PortRef} {role : Role} {id k : NodeId}
    {l : Link} {a b : PortRef}

/-- What every edit relies on: vacant ids name empty slots, and no link id is in use or vacant twice. A
graph without threads that grew from nothing is always like this. -/
structure Tidy (g : Graph κ) : Prop where
  unthreaded : g.threads = none
  vacant_nodup : g.vacant.Nodup
  vacant_empty : ∀ id ∈ g.vacant, g.slots[id]? = some none
  ids_nodup : (g.links.map Link.id ++ g.vacantLinks).Nodup
  ids_lt : ∀ id ∈ g.links.map Link.id ++ g.vacantLinks, id < g.linkBound

theorem tidy_empty (name : String) : ({ name } : Graph κ).Tidy where
  unthreaded := rfl
  vacant_nodup := List.nodup_nil
  vacant_empty := nofun
  ids_nodup := List.nodup_nil
  ids_lt := nofun

def Linked (g : Graph κ) (source target : PortRef) : Prop :=
  ∃ l ∈ g.links, l.source = source ∧ l.target = target

theorem Linked.congr (h : g'.links = g.links) (a b : PortRef) : g'.Linked a b ↔ g.Linked a b := by
  rw [Linked, Linked, h]

theorem Tidy.eq_of_id (h : g.Tidy) {l l' : Link} (hl : l ∈ g.links) (hl' : l' ∈ g.links)
    (he : l.id = l'.id) :
    l = l' :=
  List.inj_on_of_nodup_map (List.nodup_append.mp h.ids_nodup).1 hl hl' he

theorem linked_addLink (source target : PortRef) (role : Role) (a b : PortRef) :
    (g.addLink source target role).2.Linked a b ↔ (a = source ∧ b = target) ∨ g.Linked a b := by
  simp only [Linked, addLink, List.mem_cons, exists_eq_or_imp]
  exact or_congr_left ⟨fun h => ⟨h.1.symm, h.2.symm⟩, fun h => ⟨h.1.symm, h.2.symm⟩⟩

theorem Tidy.addLink (h : g.Tidy) (source target : PortRef) (role : Role) :
    (g.addLink source target role).2.Tidy := by
  have hn := h.ids_nodup
  have hb := h.ids_lt
  have hv := h.vacant_empty
  have hmap := h.unthreaded
  cases hl : g.vacantLinks with
  | nil =>
      rw [hl, List.append_nil] at hn hb
      refine ⟨?_, h.vacant_nodup, hv, ?_, ?_⟩ <;> simp only [Graph.addLink, hl, hmap]
      · rfl
      · simp only [List.headD_nil, List.map_cons, List.tail_nil, List.append_nil, List.nodup_cons]
        exact ⟨fun hm => Nat.lt_irrefl _ (hb _ hm), hn⟩
      · intro id hid
        simp only [List.headD_nil, List.map_cons, List.tail_nil, List.append_nil, List.mem_cons] at hid
        have hid : id ≤ g.linkBound := hid.elim Nat.le_of_eq fun hm => Nat.le_of_lt (hb id hm)
        simpa using Nat.lt_succ_of_le hid
  | cons id rest =>
      rw [hl] at hn hb
      refine ⟨?_, h.vacant_nodup, hv, ?_, ?_⟩ <;> simp only [Graph.addLink, hl, hmap]
      · rfl
      · simpa using List.nodup_middle.mp hn
      · intro i hi
        simp only [List.headD_cons, List.map_cons, List.tail_cons, List.cons_append, List.mem_cons] at hi
        refine hb i (List.mem_append.mpr ?_)
        rcases hi with rfl | hi
        · exact Or.inr List.mem_cons_self
        · exact (List.mem_append.mp hi).imp_right (List.mem_cons_of_mem _)

theorem mem_links_removeLink (id : LinkId) : l ∈ (g.removeLink id).links ↔ l ∈ g.links ∧ l.id ≠ id := by
  rw [removeLink]
  cases hf : g.link? id with
  | none =>
      rw [link?, List.find?_eq_none] at hf
      exact ⟨fun h => ⟨h, by simpa using hf l h⟩, fun h => h.1⟩
  | some k => simp

theorem Tidy.removeLink (h : g.Tidy) (id : LinkId) : (g.removeLink id).Tidy := by
  rw [Graph.removeLink]
  cases hf : g.link? id with
  | none => exact h
  | some k =>
      have hid : k.id = id := by simpa using List.find?_some hf
      have hk : id ∈ g.links.map Link.id := hid ▸ List.mem_map_of_mem (List.mem_of_find?_eq_some hf)
      have hperm : ((g.links.filter fun l => l.id ≠ id).map Link.id ++ id :: g.vacantLinks).Perm
          (g.links.map Link.id ++ g.vacantLinks) := by
        have hone : (g.links.filter fun l => l.id ≠ id).map Link.id = (g.links.map Link.id).erase id := by
          rw [(List.nodup_append.mp h.ids_nodup).1.erase_eq_filter, List.filter_map]
          congr 2
          funext l
          simp [Function.comp_apply, bne]
          rfl
        rw [hone]
        refine List.perm_middle.trans ?_
        exact ((List.perm_cons_erase hk).symm.append_right g.vacantLinks)
      refine ⟨by simp only [h.unthreaded, Option.map_none], h.vacant_nodup, h.vacant_empty, ?_, ?_⟩
      · exact hperm.nodup_iff.mpr h.ids_nodup
      · exact fun i hi => h.ids_lt i (hperm.mem_iff.mp hi)

section

variable (h : g.threads = none)
include h

theorem edges_perm (hp : g.port? p = some port) :
    (g.edges p).Perm ((g.links.filter fun l => l.near port.direction = p).map
      fun l => (l.id, l.far port.direction)) := by
  have hnear (l : Link) : (decide ((l.near port.direction).index = p.index) &&
      decide ((l.near port.direction).node = p.node)) =
      decide (l.near port.direction = p) := by
    cases p
    cases l.near port.direction
    simp [Bool.and_comm]
  simp only [edges, hp, linksAt, h, List.filter_filter, hnear]
  exact List.mergeSort_perm _ _

theorem mem_edges (hp : g.port? p = some port) {e : LinkId × PortRef} :
    e ∈ g.edges p ↔ ∃ l ∈ g.links, l.near port.direction = p ∧ e = (l.id, l.far port.direction) := by
  rw [(edges_perm h hp).mem_iff, List.mem_map]
  simp only [List.mem_filter, decide_eq_true_eq, and_assoc, @eq_comm _ e]

theorem mem_farEnds {p q : PortRef} (hp : g.port? p = some port) :
    q ∈ g.farEnds p ↔ ∃ l ∈ g.links, l.near port.direction = p ∧ l.far port.direction = q := by
  rw [farEnds, List.mem_map]
  constructor
  · rintro ⟨e, he, rfl⟩
    obtain ⟨l, hl, hnear, rfl⟩ := (mem_edges h hp).mp he
    exact ⟨l, hl, hnear, rfl⟩
  · rintro ⟨l, hl, hnear, rfl⟩
    exact ⟨_, (mem_edges h hp).mpr ⟨l, hl, hnear, rfl⟩, rfl⟩

theorem mem_farEnds_input (hp : g.port? p = some port)
    (hd : port.direction = .input) {s : PortRef} : s ∈ g.farEnds p ↔ g.Linked s p := by
  rw [mem_farEnds h hp, hd]
  exact exists_congr fun l => and_congr_right fun _ => and_comm

theorem mem_farEnds_output (hp : g.port? p = some port)
    (hd : port.direction = .output) {t : PortRef} : t ∈ g.farEnds p ↔ g.Linked p t := by
  rw [mem_farEnds h hp, hd]
  rfl

theorem mem_neighbours {d : Direction} :
    k ∈ distinct (g.neighbours id role d) ↔
      g.contains id = true ∧ ∃ l ∈ g.links, l.role = role ∧ (l.near d).node = id ∧ (l.far d).node = k := by
  rw [distinct, List.mem_eraseDups, List.mem_map]
  simp only [List.mem_mergeSort, neighbours]
  split
  · next hc =>
      simp only [hc, linksAt, h, List.mem_map, List.mem_filter, decide_eq_true_eq, true_and]
      constructor
      · rintro ⟨_, ⟨l, ⟨⟨hl, hnear⟩, hrole⟩, rfl⟩, rfl⟩
        exact ⟨l, hl, hrole, hnear, rfl⟩
      · rintro ⟨l, hl, hrole, hnear, rfl⟩
        exact ⟨_, ⟨l, ⟨⟨hl, hnear⟩, hrole⟩, rfl⟩, rfl⟩
  · next hc => simp [hc]

theorem mem_successors :
    k ∈ g.successors id role ↔ g.contains id = true ∧ ∃ l ∈ g.links, l.role = role ∧
      l.source.node = id ∧ l.target.node = k :=
  mem_neighbours h

theorem mem_predecessors :
    k ∈ g.predecessors id role ↔ g.contains id = true ∧ ∃ l ∈ g.links, l.role = role ∧
      l.target.node = id ∧ l.source.node = k :=
  mem_neighbours h

end

theorem Tidy.mem_successors (h : g.Tidy) :
    k ∈ g.successors id role ↔ g.contains id = true ∧ ∃ l ∈ g.links, l.role = role ∧
      l.source.node = id ∧ l.target.node = k :=
  Graph.mem_successors h.unthreaded

theorem port?_congr (h : g'.slots = g.slots) (p : PortRef) : g'.port? p = g.port? p := by
  rw [port?, port?, node?_congr h]

theorem mem_links_foldl_removeLink (ids : List (LinkId × PortRef)) :
    l ∈ (ids.foldl (fun g e => g.removeLink e.1) g).links ↔ l ∈ g.links ∧ ∀ e ∈ ids, l.id ≠ e.1 := by
  induction ids generalizing g with
  | nil => simp
  | cons e rest ih =>
      rw [List.foldl_cons, ih, mem_links_removeLink, List.forall_mem_cons, and_assoc]

theorem Tidy.disconnect (h : g.Tidy) (p : PortRef) : (g.disconnect p).Tidy := by
  rw [Graph.disconnect]
  induction g.edges p generalizing g with
  | nil => exact h
  | cons e rest ih => exact ih (h.removeLink e.1)

theorem mem_links_disconnect (h : g.Tidy) (hp : g.port? p = some port) :
    l ∈ (g.disconnect p).links ↔ l ∈ g.links ∧ l.near port.direction ≠ p := by
  rw [disconnect, mem_links_foldl_removeLink]
  refine and_congr_right fun hl => ?_
  constructor
  · intro hne hn
    exact hne (l.id, l.far port.direction) ((mem_edges h.unthreaded hp).mpr ⟨l, hl, hn, rfl⟩) rfl
  · intro hn e he hid
    obtain ⟨l', hl', hn', rfl⟩ := (mem_edges h.unthreaded hp).mp he
    rw [h.eq_of_id hl hl' hid] at hn
    exact hn hn'

theorem linked_disconnect (h : g.Tidy) (hp : g.port? p = some port) (a b : PortRef) :
    (g.disconnect p).Linked a b ↔
    g.Linked a b ∧ (match port.direction with | .output => a | .input => b) ≠ p := by
  simp only [Linked, mem_links_disconnect h hp]
  constructor
  · rintro ⟨l, ⟨hl, hn⟩, rfl, rfl⟩
    exact ⟨⟨l, hl, rfl, rfl⟩, hn⟩
  · rintro ⟨⟨l, hl, rfl, rfl⟩, hn⟩
    exact ⟨l, ⟨hl, hn⟩, rfl, rfl⟩

theorem checkLink_cases {a b source target : PortRef} (h : g.checkLink a b = .ok (source, target, role)) :
    ∃ ps pt, g.port? source = some ps ∧ g.port? target = some pt ∧ ps.direction = .output ∧
      pt.direction = .input ∧
      ps.role = role ∧ pt.role = role ∧ source.node ≠ target.node ∧
      ((source = a ∧ target = b) ∨ (source = b ∧ target = a)) := by
  unfold checkLink at h
  split at h
  · cases h
  · cases h
  · next pa pb ha hb =>
      split at h
      · cases h
      · next hnode =>
          split at h
          · cases h
          · next hrole =>
              have hrole : pa.role = pb.role := Decidable.not_not.mp hrole
              split at h
              · next hda hdb =>
                  cases h
                  exact ⟨pa, pb, ha, hb, hda, hdb, rfl, hrole.symm, hnode, Or.inl ⟨rfl, rfl⟩⟩
              · next hda hdb =>
                  cases h
                  exact ⟨pb, pa, hb, ha, hdb, hda, hrole.symm, rfl, Ne.symm hnode, Or.inr ⟨rfl, rfl⟩⟩
              · cases h
              · cases h

theorem Tidy.connect (h : g.Tidy) {l : LinkId} (hc : g.connect a b = .ok (l, g')) : g'.Tidy := by
  obtain ⟨source, target, role, _, ⟨_, _, rfl⟩ | ⟨_, rfl⟩⟩ := connect_cases hc
  · exact h
  · exact h.addLink source target role

theorem connect_linked (h : g.Tidy) {l : LinkId} (hc : g.connect a b = .ok (l, g')) :
    ∃ source target role, g.checkLink a b = .ok (source, target, role) ∧
      ∀ s t, g'.Linked s t ↔ (s = source ∧ t = target) ∨ g.Linked s t := by
  obtain ⟨source, target, role, hcheck, ⟨e, he, rfl⟩ | ⟨_, rfl⟩⟩ := connect_cases hc
  · refine ⟨source, target, role, hcheck, fun s t => ⟨Or.inr, ?_⟩⟩
    rintro (⟨rfl, rfl⟩ | hl)
    · obtain ⟨ps, _, hs, _, hd, _⟩ := checkLink_cases hcheck
      have ht : e.2 = t := by simpa using List.find?_some he
      subst ht
      exact (mem_farEnds_output h.unthreaded hs hd).mp (List.mem_map_of_mem (List.mem_of_find?_eq_some he))
    · exact hl
  · exact ⟨source, target, role, hcheck, fun s t => linked_addLink source target role s t⟩

theorem Tidy.place (h : g.Tidy) (n : Node κ) : (g.place n).2.Tidy ∧ g.node? (g.place n).1 = none ∧
    (∀ k, (g.place n).2.node? k = if k = (g.place n).1 then some n else g.node? k) ∧
    (g.place n).2.links = g.links := by
  unfold Graph.place
  rw [h.unthreaded]
  cases hv : g.vacant with
  | nil =>
      refine ⟨⟨rfl, List.nodup_nil, nofun, h.ids_nodup, h.ids_lt⟩, ?_, fun k => ?_, rfl⟩
      · simp [node?]
      · simp only [node?]
        rcases Nat.lt_trichotomy k g.slots.length with hk | hk | hk
        · rw [if_neg (Nat.ne_of_lt hk), List.getElem?_append_left hk]
        · subst hk
          simp
        · rw [if_neg (Nat.ne_of_gt hk), List.getElem?_eq_none (Nat.le_of_lt hk), List.getElem?_eq_none]
          rw [List.length_append]
          exact hk
  | cons id rest =>
      have hnodup := h.vacant_nodup
      have hempty := h.vacant_empty
      rw [hv] at hnodup hempty
      obtain ⟨hid, hrest⟩ := List.nodup_cons.mp hnodup
      have hslot := hempty id List.mem_cons_self
      refine ⟨⟨rfl, hrest, fun k hk => ?_, h.ids_nodup, h.ids_lt⟩,
        by simp [node?, hslot], fun k => ?_, rfl⟩
      · have hne : id ≠ k := fun he => hid (he ▸ hk)
        rw [List.getElem?_set_ne hne]
        exact hempty k (List.mem_cons_of_mem _ hk)
      · obtain ⟨hlt, _⟩ := List.getElem?_eq_some_iff.mp hslot
        simp only [node?, List.getElem?_set]
        by_cases hk : id = k
        · subst hk
          simp [hlt]
        · simp [hk, Ne.symm hk]

theorem Tidy.addNode (h : g.Tidy) (n : Node κ) : (g.addNode n).2.Tidy := by
  obtain ⟨ha, _⟩ := h.place { n with order := g.freshOrder }
  exact ⟨ha.unthreaded, ha.vacant_nodup, ha.vacant_empty, ha.ids_nodup, ha.ids_lt⟩

theorem Tidy.addNode_fresh (h : g.Tidy) (n : Node κ) : g.node? (g.addNode n).1 = none :=
  (h.place { n with order := g.freshOrder }).2.1

theorem Tidy.node?_addNode (h : g.Tidy) (n : Node κ) (k : NodeId) :
    (g.addNode n).2.node? k = if k = (g.addNode n).1 then some { n with order := g.freshOrder }
      else g.node? k :=
  (h.place { n with order := g.freshOrder }).2.2.1 k

theorem Tidy.addNode_links (h : g.Tidy) (n : Node κ) : (g.addNode n).2.links = g.links :=
  (h.place { n with order := g.freshOrder }).2.2.2

theorem Tidy.modifyNode (h : g.Tidy) (id : NodeId) (f : Node κ → Node κ) : (g.modifyNode id f).Tidy := by
  refine ⟨h.unthreaded, h.vacant_nodup, fun k hk => ?_, h.ids_nodup, h.ids_lt⟩
  rw [Graph.modifyNode, List.getElem?_modify, h.vacant_empty k hk]
  split <;> rfl

theorem Tidy.mem_links_removeNode (h : g.Tidy) (id : NodeId) :
    l ∈ (g.removeNode id).links ↔
      l ∈ g.links ∧ (g.contains id = true → l.source.node ≠ id ∧ l.target.node ≠ id) := by
  rw [Graph.removeNode, h.unthreaded]
  cases g.contains id <;> simp

variable (g) in
theorem removeNode_links_perm (id : NodeId) :
    ((g.links.filter fun l => l.source.node ≠ id ∧ l.target.node ≠ id) ++
      ((g.links.filter fun l => l.source.node = id) ++
        g.links.filter fun l => l.source.node ≠ id ∧ l.target.node = id)).Perm g.links := by
  induction g.links with
  | nil => exact .refl _
  | cons l rest ih =>
      by_cases hs : l.source.node = id
      · simp only [List.filter_cons, hs, ne_eq, not_true_eq_false, false_and, decide_false,
          decide_true, if_true,
          Bool.false_eq_true, if_false, List.cons_append]
        exact List.perm_middle.trans (ih.cons l)
      · by_cases ht : l.target.node = id
        · simp only [List.filter_cons, hs, ht, ne_eq, not_true_eq_false, not_false_eq_true,
            and_false, and_true,
            decide_false, decide_true, if_true, Bool.false_eq_true, if_false]
          rw [← List.append_assoc]
          refine List.perm_middle.trans (.cons l ?_)
          rw [List.append_assoc]
          exact ih
        · simp only [List.filter_cons, hs, ht, ne_eq, not_false_eq_true, and_self, and_false,
            decide_true, decide_false,
            if_true, Bool.false_eq_true, if_false, List.cons_append]
          exact ih.cons l

theorem Tidy.removeNode (h : g.Tidy) (id : NodeId) : (g.removeNode id).Tidy := by
  rw [Graph.removeNode]
  cases hc : g.contains id with
  | false => exact h
  | true =>
      simp only [h.unthreaded, Bool.not_true, Bool.false_eq_true, if_false, Option.isSome_none]
      obtain ⟨n, hn⟩ := contains_iff.mp hc
      have hslot := node?_eq_some.mp hn
      have hid : id ∉ g.vacant := by
        intro hm
        rw [h.vacant_empty id hm] at hslot
        cases hslot
      -- The ids of the links that go become vacant, so all ids together stay the same.
      have hperm := ((removeNode_links_perm g id).map Link.id).append_right g.vacantLinks
      rw [List.map_append, List.append_assoc] at hperm
      have hids := ((List.reverse_perm _).append_right g.vacantLinks).append_left _ |>.trans hperm
      refine ⟨rfl, List.nodup_cons.mpr ⟨hid, h.vacant_nodup⟩, fun k hk => ?_, ?_, ?_⟩
      · rw [List.getElem?_set]
        rcases List.mem_cons.mp hk with rfl | hk
        · simp [(List.getElem?_eq_some_iff.mp hslot).1]
        · have hne : id ≠ k := fun he => hid (he ▸ hk)
          rw [if_neg hne]
          exact h.vacant_empty k hk
      · exact hids.nodup_iff.mpr h.ids_nodup
      · exact fun i hi => h.ids_lt i (hids.mem_iff.mp hi)

theorem Tidy.copyNodes (h : g.Tidy) (l : List (NodeId × Node κ)) : (g.copyNodes l).2.Tidy := by
  induction l generalizing g with
  | nil => exact h
  | cons p rest ih => exact ih (h.addNode p.2)

theorem Tidy.copyNodes_links (h : g.Tidy) (l : List (NodeId × Node κ)) :
    (g.copyNodes l).2.links = g.links := by
  induction l generalizing g with
  | nil => rfl
  | cons p rest ih => exact (ih (h.addNode p.2)).trans (h.addNode_links p.2)

/-- Copying leaves the nodes that were there alone: the copies get ids that named nothing. -/
theorem Tidy.copyNodes_fresh (h : g.Tidy) (l : List (NodeId × Node κ)) :
    (∀ k ∈ (g.copyNodes l).1.copies, g.node? k = none) ∧
      ∀ k, k ∉ (g.copyNodes l).1.copies → (g.copyNodes l).2.node? k = g.node? k := by
  induction l generalizing g with
  | nil => exact ⟨nofun, fun _ _ => rfl⟩
  | cons p rest ih =>
      obtain ⟨hfresh, hkeep⟩ := ih (h.addNode p.2)
      have hcopies : (g.copyNodes (p :: rest)).1.copies =
          (g.addNode p.2).1 :: ((g.addNode p.2).2.copyNodes rest).1.copies := rfl
      rw [hcopies]
      constructor
      · intro k hk
        rcases List.mem_cons.mp hk with rfl | hk
        · exact h.addNode_fresh p.2
        · have hnone := hfresh k hk
          rw [h.node?_addNode] at hnone
          split at hnone
          · cases hnone
          · exact hnone
      · intro k hk
        obtain ⟨hne, hk⟩ := not_or.mp (mt List.mem_cons.mpr hk)
        refine (hkeep k hk).trans ?_
        rw [h.node?_addNode, if_neg hne]

theorem Tidy.copyLinkList (h : g.Tidy) (map : CloneMap) (links : List Link) :
    (copyLinkList map g links).Tidy := by
  induction links generalizing g with
  | nil => exact h
  | cons l rest ih =>
      rw [Graph.copyLinkList]
      split
      · exact ih (h.addLink _ _ _)
      · exact ih h

theorem CloneMap.mem_copies {map : CloneMap} {s k : NodeId} (h : map.copy? s = some k) :
    k ∈ map.copies := by
  obtain ⟨p, hp, rfl⟩ := Option.map_eq_some_iff.mp h
  exact List.mem_map_of_mem (List.mem_of_find?_eq_some hp)

theorem linked_copyLinkList (map : CloneMap) (links : List Link) (a b : PortRef)
    (h : (copyLinkList map g links).Linked a b) :
    g.Linked a b ∨ (a.node ∈ map.copies ∧ b.node ∈ map.copies) := by
  induction links generalizing g with
  | nil => exact Or.inl h
  | cons l rest ih =>
      rw [Graph.copyLinkList] at h
      split at h
      · next s t hs ht =>
          rcases ih h with h | h
          · rcases (linked_addLink _ _ _ a b).mp h with ⟨rfl, rfl⟩ | h
            · exact Or.inr ⟨CloneMap.mem_copies hs, CloneMap.mem_copies ht⟩
            · exact Or.inl h
          · exact Or.inr h
      · exact ih h

theorem Tidy.merge (h : g.Tidy) (other : Graph κ) : (g.merge other).2.Tidy :=
  (h.copyNodes other.nodes).copyLinkList _ _

theorem Tidy.merge_fresh (h : g.Tidy) (other : Graph κ) {k : NodeId} (hk : k ∈ (g.merge other).1.copies) :
    g.node? k = none :=
  (h.copyNodes_fresh other.nodes).1 k hk

theorem Tidy.node?_merge (h : g.Tidy) (other : Graph κ) {k : NodeId} (hk : k ∉ (g.merge other).1.copies) :
    (g.merge other).2.node? k = g.node? k :=
  (node?_congr (copyLinkList_slots ..) k).trans ((h.copyNodes_fresh other.nodes).2 k hk)

theorem Tidy.linked_merge (h : g.Tidy) (other : Graph κ) (hl : (g.merge other).2.Linked a b) :
    g.Linked a b ∨ (a.node ∈ (g.merge other).1.copies ∧ b.node ∈ (g.merge other).1.copies) := by
  refine (linked_copyLinkList _ _ a b hl).imp_left fun hl => ?_
  exact (Linked.congr (h.copyNodes_links other.nodes) a b).mp hl

theorem tidy_clone (g : Graph κ) : g.clone.2.Tidy := (tidy_empty g.name).merge g

end VisualScript.Graph
