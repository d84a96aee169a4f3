import VisualScript.Proofs.Term.Names

namespace VisualScript

variable {α β γ : Type} [DecidableEq β] {key : α → β} {l : List α} {a : α}

/-- The members of a list whose key no earlier member has. -/
def firsts (key : α → β) (l : List α) : List α :=
  (l.zipIdx.filter fun p => key p.1 ∉ (l.take p.2).map key).map Prod.fst

/-- The members of a list whose key an earlier member has. -/
def repeats (key : α → β) (l : List α) : List α :=
  (l.zipIdx.filter fun p => key p.1 ∈ (l.take p.2).map key).map Prod.fst

omit [DecidableEq β] in
theorem filter_zipIdx_concat (p : α → List α → Bool) (l : List α) (a : α) :
    (((l ++ [a]).zipIdx.filter fun x => p x.1 ((l ++ [a]).take x.2)).map Prod.fst) =
      ((l.zipIdx.filter fun x => p x.1 (l.take x.2)).map Prod.fst) ++ if p a l then [a] else [] := by
  have hfront : (l.zipIdx.filter fun x => p x.1 ((l ++ [a]).take x.2)) =
      l.zipIdx.filter fun x => p x.1 (l.take x.2) := by
    apply List.filter_congr
    intro x hx
    have hlt : x.2 < l.length := List.snd_lt_of_mem_zipIdx hx
    rw [List.take_append_of_le_length (Nat.le_of_lt hlt)]
  rw [List.zipIdx_append, List.filter_append, List.map_append, hfront]
  congr 1
  simp only [List.zipIdx_singleton, Nat.zero_add, List.filter_singleton, List.take_left']
  by_cases hp : p a l <;> simp [hp]

theorem firsts_concat (key : α → β) (l : List α) (a : α) :
    firsts key (l ++ [a]) = firsts key l ++ if key a ∈ l.map key then [] else [a] := by
  have hsnoc := filter_zipIdx_concat (fun x front => key x ∉ front.map key) l a
  rw [firsts, hsnoc, firsts]
  by_cases ha : key a ∈ l.map key <;> simp [ha]

theorem repeats_concat (key : α → β) (l : List α) (a : α) :
    repeats key (l ++ [a]) = repeats key l ++ if key a ∈ l.map key then [a] else [] := by
  have hsnoc := filter_zipIdx_concat (fun x front => key x ∈ front.map key) l a
  rw [repeats, hsnoc, repeats]
  by_cases ha : key a ∈ l.map key <;> simp [ha]

theorem map_firsts (key : α → β) (l : List α) : (firsts key l).map key = (l.map key).eraseDups := by
  induction l using List.reverseRecOn with
  | nil => rfl
  | append_singleton l a ih =>
      rw [firsts_concat, List.map_append, List.map_append, List.eraseDups_append, ih,
        List.removeAll, List.map_singleton,
        List.filter_singleton]
      by_cases ha : key a ∈ l.map key <;> simp [ha, List.eraseDups_cons]

namespace OrderedMap

/-- The map holds what was made of the first member with each key. -/
def HoldsFirsts (m : OrderedMap β γ) (key : α → β) (value : α → γ) (l : List α) : Prop :=
  m.entries = (firsts key l).map fun a => (key a, value a)

variable {m : OrderedMap β γ} {value : α → γ}

theorem HoldsFirsts.contains (h : m.HoldsFirsts key value l) {k : β} :
    m.contains k = true ↔ k ∈ l.map key := by
  have hkeys : m.keys = (firsts key l).map key := by
    rw [keys, h, List.map_map]
    rfl
  rw [contains_iff_mem_keys, hkeys, map_firsts, List.mem_eraseDups]

theorem HoldsFirsts.concat (h : m.HoldsFirsts key value l) (a : α) :
    HoldsFirsts (if m.contains (key a) then m else m.insert (key a) (value a)) key value (l ++ [a]) := by
  unfold HoldsFirsts
  rw [firsts_concat]
  by_cases ha : key a ∈ l.map key
  · rw [if_pos (h.contains.mpr ha), if_pos ha, List.append_nil]
    exact h
  · have hnew : m.contains (key a) = false := Bool.eq_false_iff.mpr (mt h.contains.mp ha)
    rw [hnew, if_neg Bool.false_ne_true, entries_insert_of_new hnew, if_neg ha, List.map_append, h]
    rfl

end OrderedMap

end VisualScript
