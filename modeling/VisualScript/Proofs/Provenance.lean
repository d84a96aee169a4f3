import VisualScript.Proofs.OrderedMap
import VisualScript.Provenance

namespace VisualScript

theorem Origin.depth_through (o : Origin) (source : SourceRef) (synthesized : Bool) :
    (o.through source synthesized).depth = o.depth + 1 := by
  simp [Origin.depth, Origin.through]

namespace Provenance

variable (p : Provenance)

theorem depth_originOrSelf (id : NodeId) : (p.originOrSelf id).depth = p.depth id := by
  rw [originOrSelf, depth]
  cases p.get? id <;> rfl

theorem depth_record (id k : NodeId) (o : Origin) :
    (p.record id o).depth k = if k = id then o.depth else p.depth k := by
  rw [depth, record, OrderedMap.get?_insert]
  by_cases h : k = id
  · simp only [h, if_true]
  · simp only [h, if_false]
    rfl

theorem depth_forget_of_ne {id k : NodeId} (h : k ≠ id) : (p.forget id).depth k = p.depth k := by
  rw [depth, forget, OrderedMap.get?_erase, if_neg h]
  rfl

theorem depth_recordExpansion (map : CloneMap) (body : String) (site k : NodeId) :
    (p.recordExpansion map body site).depth k =
      if k ∈ map.copies then p.depth site + 1 else p.depth k := by
  have ho := depth_originOrSelf p site
  rw [recordExpansion, CloneMap.copies]
  generalize p.originOrSelf site = o at ho
  rw [← ho]
  clear ho
  induction map.pairs generalizing p with
  | nil => rfl
  | cons c rest ih =>
      rw [List.foldl_cons, ih, depth_record, Origin.depth_through]
      change _ = if k ∈ c.2 :: rest.map Prod.snd then _ else _
      by_cases hr : k ∈ rest.map Prod.snd
      · rw [if_pos hr, if_pos (List.mem_cons_of_mem _ hr)]
      · by_cases h : k = c.2
        · rw [if_neg hr, if_pos h, if_pos (List.mem_cons.mpr (Or.inl h))]
        · rw [if_neg hr, if_neg h, if_neg fun hk => (List.mem_cons.mp hk).elim h hr]

theorem get?_record (id k : NodeId) (o : Origin) :
    (p.record id o).get? k = if k = id then some o else p.get? k :=
  OrderedMap.get?_insert p id k o

theorem get?_forget (id k : NodeId) : (p.forget id).get? k = if k = id then none else p.get? k :=
  OrderedMap.get?_erase p id k

theorem get?_recordCopies (pairs : List (NodeId × NodeId)) (origin : NodeId → Origin) (k : NodeId) :
    (k ∉ pairs.map Prod.snd ∧ (pairs.foldl (fun p c => p.record c.2 (origin c.1)) p).get? k = p.get? k) ∨
      ∃ s, (s, k) ∈ pairs ∧ (pairs.foldl (fun p c => p.record c.2 (origin c.1)) p).get? k =
        some (origin s) := by
  induction pairs generalizing p with
  | nil => exact Or.inl ⟨List.not_mem_nil, rfl⟩
  | cons c rest ih =>
      rcases ih (p.record c.2 (origin c.1)) with ⟨hk, hget⟩ | ⟨s, hs, hget⟩
      · rw [get?_record] at hget
        by_cases hc : k = c.2
        · exact Or.inr ⟨c.1, hc ▸ List.mem_cons_self, by rw [List.foldl_cons, hget, if_pos hc]⟩
        · rw [if_neg hc] at hget
          exact Or.inl ⟨fun h => (List.mem_cons.mp h).elim hc hk, hget⟩
      · exact Or.inr ⟨s, List.mem_cons_of_mem c hs, hget⟩

theorem get?_recordClone (map : CloneMap) (graph : String) (k : NodeId) :
    (k ∉ map.copies ∧ (p.recordClone map graph).get? k = p.get? k) ∨
      ∃ s, (s, k) ∈ map.pairs ∧ (p.recordClone map graph).get? k = some { source := ⟨graph, s⟩ } :=
  get?_recordCopies p map.pairs (fun s => { source := ⟨graph, s⟩ }) k

theorem originOrSelf_of_get? {id : NodeId} {o : Origin} (h : p.get? id = some o) :
    p.originOrSelf id = o := by
  rw [originOrSelf, h]

theorem depth_of_get? {id : NodeId} {o : Origin} (h : p.get? id = some o) : p.depth id = o.depth := by
  rw [depth, h]

theorem get?_recordExpansion {site : NodeId} {o : Origin} (h : p.get? site = some o)
    (map : CloneMap) (body : String) (k : NodeId) :
    (k ∉ map.copies ∧ (p.recordExpansion map body site).get? k = p.get? k) ∨
      ∃ s, (s, k) ∈ map.pairs ∧ (p.recordExpansion map body site).get? k =
        some (o.through ⟨body, s⟩ false) := by
  rw [recordExpansion, originOrSelf_of_get? p h]
  exact get?_recordCopies p map.pairs (fun s => o.through ⟨body, s⟩ false) k

theorem get?_recordSynthesized {site : NodeId} {o : Origin} (h : p.get? site = some o) (id k : NodeId) :
    (p.recordSynthesized id site).get? k = if k = id then some (o.through o.source true)
      else p.get? k := by
  rw [recordSynthesized, originOrSelf_of_get? p h, get?_record]

theorem depth_recordSynthesized (id site k : NodeId) :
    (p.recordSynthesized id site).depth k = if k = id then p.depth site + 1 else p.depth k := by
  rw [recordSynthesized, depth_record, Origin.depth_through, depth_originOrSelf]

end Provenance

end VisualScript
