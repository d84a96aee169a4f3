import VisualScript.Proofs.Graph.Copies

namespace VisualScript.Graph

variable {κ : Type} {g g' : Graph κ}

theorem length_nodeIds (g : Graph κ) : g.nodeIds.length = g.nodeCount := by
  have hslots : g.slots.countP Option.isSome = (g.slots.zipIdx.map Prod.fst).countP Option.isSome := by
    rw [List.zipIdx_map_fst]
  rw [nodeIds, List.length_map, nodes, List.length_mergeSort, nodeCount, stored,
    List.length_filterMap_eq_countP, hslots,
    List.countP_map]
  exact List.countP_congr fun s _ => by simp

theorem nodeCount_congr (h : g'.slots = g.slots) :
    g'.nodeCount = g.nodeCount := congrArg (List.countP Option.isSome) h

variable (g) in
theorem nodeCount_modifyNode (id : NodeId) (f : Node κ → Node κ) :
    (g.modifyNode id f).nodeCount = g.nodeCount := by
  rw [nodeCount, nodeCount, modifyNode]
  induction g.slots generalizing id with
  | nil => rw [List.modify_nil]
  | cons slot rest ih =>
      cases id with
      | zero => simp [List.countP_cons]
      | succ id => rw [List.modify_succ_cons, List.countP_cons, List.countP_cons, ih]

theorem nodeCount_removeNode {id : NodeId} (h : g.contains id = true) :
    (g.removeNode id).nodeCount + 1 = g.nodeCount := by
  obtain ⟨n, hn⟩ := contains_iff.mp h
  obtain ⟨hlt, hslot⟩ := List.getElem?_eq_some_iff.mp (node?_eq_some.mp hn)
  have hpos : 0 < g.slots.countP Option.isSome :=
    List.countP_pos_iff.mpr ⟨some n, hslot ▸ List.getElem_mem hlt, rfl⟩
  rw [nodeCount, nodeCount, removeNode_slots, List.countP_set hlt, hslot]
  simp only [Option.isSome_some, Option.isSome_none, if_true, Bool.false_eq_true, if_false]
  omega

theorem Tidy.nodeCount_addNode (h : g.Tidy) (n : Node κ) :
    (g.addNode n).2.nodeCount = g.nodeCount + 1 := by
  have hplace : (g.addNode n).2.slots = (g.place { n with order := g.freshOrder }).2.slots := rfl
  rw [nodeCount, hplace, Graph.place, h.unthreaded]
  cases hv : g.vacant with
  | nil => simp [nodeCount]
  | cons id rest =>
      obtain ⟨hlt, hslot⟩ := List.getElem?_eq_some_iff.mp (h.vacant_empty id (hv ▸ List.mem_cons_self))
      simp [List.countP_set hlt, hslot, nodeCount]

theorem Tidy.nodeCount_merge (h : g.Tidy) (other : Graph κ) :
    (g.merge other).2.nodeCount = g.nodeCount + other.nodeCount := by
  have hcopy (l : List (NodeId × Node κ)) : (g.copyNodes l).2.nodeCount = g.nodeCount + l.length := by
    induction l generalizing g with
    | nil => rfl
    | cons p rest ih =>
        have hrest : (g.copyNodes (p :: rest)).2.nodeCount =
            (g.addNode p.2).2.nodeCount + rest.length := ih (h.addNode p.2)
        rw [hrest, h.nodeCount_addNode, List.length_cons, Nat.add_right_comm, Nat.add_assoc]
  have hlength : other.nodes.length = other.nodeCount := by
    rw [← other.length_nodeIds, nodeIds, List.length_map]
  rw [← hlength, ← hcopy]
  exact nodeCount_congr (copyLinkList_slots ..)

theorem length_copies (g other : Graph κ) : (g.merge other).1.copies.length = other.nodeCount := by
  rw [CloneMap.copies, List.length_map, ← other.length_nodeIds, ← g.merge_sources other, List.length_map]

end VisualScript.Graph
