import VisualScript.Proofs.Graph.Scheduling
import VisualScript.Proofs.Graph.Tidy

namespace VisualScript

def Link.ends (l : Link) : PortRef × PortRef := (l.source, l.target)

namespace CloneMap

variable {map : CloneMap} {s k : NodeId}

theorem copy?_eq_some (h : (map.pairs.map Prod.fst).Nodup) :
    map.copy? s = some k ↔ (s, k) ∈ map.pairs := by
  rw [copy?, Option.map_eq_some_iff]
  constructor
  · rintro ⟨p, hp, rfl⟩
    have hs : p.1 = s := by simpa using List.find?_some hp
    exact hs ▸ List.mem_of_find?_eq_some hp
  · intro hk
    have hfound : (map.pairs.find? fun p => p.1 = s).isSome = true :=
      List.find?_isSome.mpr ⟨(s, k), hk, decide_eq_true rfl⟩
    obtain ⟨p, hp⟩ := Option.isSome_iff_exists.mp hfound
    have hs : p.1 = s := by simpa using List.find?_some hp
    rw [List.inj_on_of_nodup_map h (List.mem_of_find?_eq_some hp) hk hs] at hp
    exact ⟨_, hp, rfl⟩

theorem filterMap_copy? (h : (map.pairs.map Prod.fst).Nodup) :
    (map.pairs.map Prod.fst).filterMap map.copy? = map.copies := by
  rw [List.filterMap_map, copies, ← List.filterMap_eq_map]
  exact List.filterMap_congr fun p hp => (copy?_eq_some h).mpr hp

/-- Between which ports of the copies the copy of a link stands. -/
def ends? (map : CloneMap) (e : PortRef × PortRef) : Option (PortRef × PortRef) :=
  (map.copy? e.1.node).bind fun s => (map.copy? e.2.node).map fun t => (⟨s, e.1.index⟩, ⟨t, e.2.index⟩)

theorem ends?_eq_some {e e' : PortRef × PortRef} : map.ends? e = some e' ↔
    (map.copy? e.1.node = some e'.1.node ∧ e'.1.index = e.1.index) ∧
      map.copy? e.2.node = some e'.2.node ∧ e'.2.index = e.2.index := by
  rw [ends?, Option.bind_eq_some_iff]
  constructor
  · rintro ⟨s, hs, he⟩
    obtain ⟨t, ht, rfl⟩ := Option.map_eq_some_iff.mp he
    exact ⟨⟨hs, rfl⟩, ht, rfl⟩
  · rintro ⟨⟨hs, hi⟩, ht, hj⟩
    refine ⟨e'.1.node, hs, Option.map_eq_some_iff.mpr ⟨e'.2.node, ht, ?_⟩⟩
    rw [← hi, ← hj]

end CloneMap

namespace Graph

variable {κ : Type} {g : Graph κ}

theorem copyNodes_sources (g : Graph κ) (l : List (NodeId × Node κ)) :
    (g.copyNodes l).1.pairs.map Prod.fst = l.map Prod.fst := by
  induction l generalizing g with
  | nil => rfl
  | cons p rest ih => exact congrArg (p.1 :: ·) (ih (g.addNode p.2).2)

theorem Tidy.nodup_copyNodes (h : g.Tidy) (l : List (NodeId × Node κ)) :
    (g.copyNodes l).1.copies.Nodup := by
  induction l generalizing g with
  | nil => exact List.nodup_nil
  | cons p rest ih =>
      have hcopies : (g.copyNodes (p :: rest)).1.copies =
          (g.addNode p.2).1 :: ((g.addNode p.2).2.copyNodes rest).1.copies := rfl
      rw [hcopies]
      refine List.nodup_cons.mpr ⟨fun hm => ?_, ih (h.addNode p.2)⟩
      have hnone := ((h.addNode p.2).copyNodes_fresh rest).1 _ hm
      rw [h.node?_addNode, if_pos rfl] at hnone
      cases hnone

theorem Tidy.mem_copyNodes (h : g.Tidy) {l : List (NodeId × Node κ)} {s k : NodeId}
    (hk : (s, k) ∈ (g.copyNodes l).1.pairs) :
    ∃ n order, (s, n) ∈ l ∧ (g.copyNodes l).2.node? k = some { n with order } := by
  induction l generalizing g with
  | nil => cases hk
  | cons x rest ih =>
      have hpairs : (g.copyNodes (x :: rest)).1.pairs =
          (x.1, (g.addNode x.2).1) :: ((g.addNode x.2).2.copyNodes rest).1.pairs := rfl
      rcases List.mem_cons.mp (hpairs ▸ hk) with he | hk
      · cases he
        have hnode : (g.addNode x.2).2.node? (g.addNode x.2).1 =
            some { x.2 with order := g.freshOrder } := by
          rw [h.node?_addNode, if_pos rfl]
        have hold : (g.addNode x.2).1 ∉ ((g.addNode x.2).2.copyNodes rest).1.copies := fun hm => by
          rw [((h.addNode x.2).copyNodes_fresh rest).1 _ hm] at hnode
          cases hnode
        exact ⟨x.2, g.freshOrder, List.mem_cons_self,
          (((h.addNode x.2).copyNodes_fresh rest).2 _ hold).trans hnode⟩
      · obtain ⟨n, order, hn, hnode⟩ := ih (h.addNode x.2) hk
        exact ⟨n, order, List.mem_cons_of_mem _ hn, hnode⟩

variable (g) in
theorem merge_sources (other : Graph κ) : (g.merge other).1.pairs.map Prod.fst = other.nodeIds :=
  g.copyNodes_sources other.nodes

variable (g) in
theorem nodup_merge_sources (other : Graph κ) : ((g.merge other).1.pairs.map Prod.fst).Nodup :=
  g.merge_sources other ▸ other.nodup_nodes

theorem Tidy.nodup_merge (h : g.Tidy) (other : Graph κ) :
    (g.merge other).1.copies.Nodup := h.nodup_copyNodes other.nodes

theorem Tidy.mem_merge (h : g.Tidy) {other : Graph κ} {s k : NodeId}
    (hk : (s, k) ∈ (g.merge other).1.pairs) :
    ∃ n order, other.node? s = some n ∧ (g.merge other).2.node? k = some { n with order } := by
  obtain ⟨n, order, hn, hnode⟩ := h.mem_copyNodes hk
  exact ⟨n, order, mem_nodes.mp hn, (node?_congr (copyLinkList_slots ..) k).trans hnode⟩

theorem Tidy.merge_copy? (h : g.Tidy) {other : Graph κ} {s k : NodeId}
    (hk : (g.merge other).1.copy? s = some k) :
    ∃ n order, other.node? s = some n ∧ (g.merge other).2.node? k = some { n with order } :=
  h.mem_merge ((CloneMap.copy?_eq_some (g.nodup_merge_sources other)).mp hk)

theorem exists_merge_copy? (g : Graph κ) {other : Graph κ} {s : NodeId} {n : Node κ}
    (hn : other.node? s = some n) :
    ∃ k, (g.merge other).1.copy? s = some k := by
  have hs : s ∈ (g.merge other).1.pairs.map Prod.fst :=
    g.merge_sources other ▸ List.mem_map_of_mem (mem_nodes.mpr hn)
  obtain ⟨p, hp, rfl⟩ := List.mem_map.mp hs
  exact ⟨p.2, (CloneMap.copy?_eq_some (g.nodup_merge_sources other)).mpr hp⟩

theorem Tidy.merge_copy?_inj (h : g.Tidy) {other : Graph κ} {s s' k : NodeId}
    (hs : (g.merge other).1.copy? s = some k) (hs' : (g.merge other).1.copy? s' = some k) :
    s = s' := by
  have hnodup := g.nodup_merge_sources other
  have hpair := List.inj_on_of_nodup_map (h.nodup_merge other) ((CloneMap.copy?_eq_some hnodup).mp hs)
    ((CloneMap.copy?_eq_some hnodup).mp hs') rfl
  exact congrArg Prod.fst hpair

theorem Tidy.merge_ends?_inj (h : g.Tidy) {other : Graph κ} {e e' c : PortRef × PortRef}
    (he : (g.merge other).1.ends? e = some c) (he' : (g.merge other).1.ends? e' = some c) : e = e' := by
  obtain ⟨⟨hs, hi⟩, ht, hj⟩ := CloneMap.ends?_eq_some.mp he
  obtain ⟨⟨hs', hi'⟩, ht', hj'⟩ := CloneMap.ends?_eq_some.mp he'
  have hport {p q : PortRef} (hnode : p.node = q.node) (hindex : p.index = q.index) : p = q := by
    cases p
    cases q
    cases hnode
    cases hindex
    rfl
  exact Prod.ext (hport (h.merge_copy?_inj hs hs') (hi.symm.trans hi'))
    (hport (h.merge_copy?_inj ht ht') (hj.symm.trans hj'))

end Graph

end VisualScript
