import VisualScript.Proofs.Graph.Merging

namespace VisualScript.Graph

variable {κ : Type} {g other : Graph κ}

theorem filterMap_nodes {α : Type} (f : NodeId × Node κ → Option α) :
    g.nodes.filterMap f = g.nodeIds.filterMap fun k => (g.node? k).bind fun n => f (k, n) := by
  rw [nodeIds, List.filterMap_map]
  refine List.filterMap_congr fun x hx => ?_
  rw [Function.comp_apply, mem_nodes.mp hx]
  rfl

theorem Tidy.node?_addNode_of_some (h : g.Tidy) (n : Node κ) {k : NodeId} {m : Node κ}
    (hm : g.node? k = some m) :
    k ≠ (g.addNode n).1 ∧ (g.addNode n).2.node? k = some m := by
  have hne : k ≠ (g.addNode n).1 := by
    rintro rfl
    rw [h.addNode_fresh] at hm
    cases hm
  refine ⟨hne, ?_⟩
  rw [h.node?_addNode, if_neg hne]
  exact hm

theorem Ready.addNode (h : g.Ready) (n : Node κ) : (g.addNode n).2.Ready where
  origin := Or.inl ⟨h.tidy.addNode n, ((Endures.refl h.tidy).addNode n).torn.trans h.whole⟩
  joins l hl := by
    rw [h.tidy.addNode_links] at hl
    have hkept {k : NodeId} (hk : g.contains k = true) : (g.addNode n).2.contains k = true := by
      obtain ⟨m, hm⟩ := contains_iff.mp hk
      exact contains_iff.mpr ⟨m, (h.tidy.node?_addNode_of_some n hm).2⟩
    exact (h.joins l hl).imp hkept hkept
  order_lt := h.tidy.addNode_order_lt h.order_lt n

theorem Ready.addNode_nodeIds (h : g.Ready) (n : Node κ) :
    (g.addNode n).2.nodeIds = g.nodeIds ++ [(g.addNode n).1] := by
  have hold {k : NodeId} (hk : k ∈ g.nodeIds) :
      k ≠ (g.addNode n).1 ∧ (g.addNode n).2.orderOf k = g.orderOf k ∧ g.orderOf k < g.nextOrder := by
    obtain ⟨m, hm⟩ := mem_nodeIds.mp hk
    obtain ⟨hne, hnode⟩ := h.tidy.node?_addNode_of_some n hm
    rw [orderOf_eq hm, orderOf_eq hnode]
    exact ⟨hne, rfl, h.order_lt hm⟩
  have hnew : (g.addNode n).2.orderOf (g.addNode n).1 = g.nextOrder := by
    rw [orderOf, h.tidy.node?_addNode, if_pos rfl]
    exact freshOrder_of_lt h.order_lt
  refine nodeIds_eq (fun k => ?_) ?_ ?_
  · rw [List.mem_append, List.mem_singleton, mem_nodeIds, h.tidy.node?_addNode]
    by_cases hk : k = (g.addNode n).1 <;> simp [hk]
  · exact List.nodup_append.mpr ⟨g.nodup_nodes, List.nodup_singleton _, fun a ha b hb he =>
      (hold ha).1 (he.trans (List.mem_singleton.mp hb))⟩
  · refine List.pairwise_append.mpr ⟨g.pairwise_nodeIds.imp_of_mem fun {a b} ha hb hab => ?_,
      List.pairwise_singleton _ _,
      fun a ha b hb => ?_⟩
    · rwa [Precedes, (hold ha).2.1, (hold hb).2.1]
    · rw [List.mem_singleton.mp hb]
      exact Or.inl (by rw [hnew, (hold ha).2.1]; exact (hold ha).2.2)

theorem Ready.merge (h : g.Ready) (other : Graph κ) : (g.merge other).2.Ready where
  origin := Or.inl ⟨h.tidy.merge other, ((Endures.refl h.tidy).merge other).torn.trans h.whole⟩
  joins l hl := by
    obtain ⟨new, hlinks, hnew⟩ := h.tidy.merge_links other
    rw [hlinks, List.mem_append] at hl
    rcases hl with hl | hl
    · obtain ⟨l', -, hl'⟩ := List.mem_filterMap.mp (hnew.mem_iff.mp (List.mem_map_of_mem hl))
      have hend (d : Direction) : (g.merge other).2.contains (l.bare.near d).node = true := by
        obtain ⟨n, order, -, hn⟩ := h.tidy.merge_copy? (CloneMap.image?_eq_some hl' d).1
        exact contains_iff.mpr ⟨_, hn⟩
      exact ⟨hend .output, hend .input⟩
    · have hkept {k : NodeId} (hk : g.contains k = true) : (g.merge other).2.contains k = true := by
        obtain ⟨n, hn⟩ := contains_iff.mp hk
        exact contains_iff.mpr ⟨n, (h.merge_kept other hn).2⟩
      exact (h.joins l hl).imp hkept hkept
  order_lt {k n} hn := by
    obtain ⟨hnext, horders⟩ := h.merge_orders other
    by_cases hk : k ∈ (g.merge other).1.copies
    · have hmem := List.mem_map_of_mem (f := (g.merge other).2.orderOf) hk
      rw [horders, orderOf_eq hn] at hmem
      rw [hnext]
      exact (List.mem_range'_1.mp hmem).2
    · have hlt := h.order_lt ((h.tidy.node?_merge other hk).symm.trans hn)
      omega

theorem isSome_image? {map : CloneMap} (h : map.pairs.map Prod.fst = other.nodeIds) (l : Link) :
    (map.image? l).isSome = (other.contains l.source.node && other.contains l.target.node) := by
  have hcopy (s : NodeId) : (map.copy? s).isSome = other.contains s := by
    rw [Bool.eq_iff_iff, CloneMap.copy?, Option.isSome_map, List.find?_isSome, contains_iff,
      ← mem_nodeIds, ← h, List.mem_map]
    simp only [decide_eq_true_eq]
  rw [← hcopy, ← hcopy, CloneMap.image?, CloneMap.ends?, Link.ends]
  cases map.copy? l.source.node <;> cases map.copy? l.target.node <;> rfl

end VisualScript.Graph
