import Mathlib.Data.List.Nodup
import VisualScript.OrderedMap

namespace VisualScript.OrderedMap

variable {α β : Type} [DecidableEq α] {m : OrderedMap α β} {l : List (α × β)} {k : α} {γ : Type}

theorem find?_put (k k' : α) (v : β) (l : List (α × β)) :
    (put k v l).find? (fun p => p.1 = k') =
      if k' = k then some (k, v) else l.find? fun p => p.1 = k' := by
  induction l with
  | nil => by_cases h : k' = k <;> simp [put, h, eq_comm]
  | cons p rest ih =>
      obtain ⟨a, b⟩ := p
      by_cases ha : a = k
      · by_cases h : k' = k
        · simp [put, ha, h]
        · have hk : ¬ k = k' := fun e => h e.symm
          simp [put, ha, h, hk]
      · by_cases h : a = k'
        · have hk : ¬ k' = k := fun e => ha (h.trans e)
          simp [put, h, hk]
        · simp [put, ha, h, ih]

theorem get?_insert (m : OrderedMap α β) (k k' : α) (v : β) :
    (m.insert k v).get? k' = if k' = k then some v else m.get? k' := by
  rw [get?, insert, find?_put]
  split <;> rfl

theorem get?_insert_of_ne (m : OrderedMap α β) {k k' : α} (v : β) (h : k' ≠ k) :
    (m.insert k v).get? k' = m.get? k' := by
  rw [get?_insert, if_neg h]

@[simp] theorem get?_empty (k : α) : (∅ : OrderedMap α β).get? k = none := rfl

theorem get?_erase (m : OrderedMap α β) (k k' : α) :
    (m.erase k).get? k' = if k' = k then none else m.get? k' := by
  have he : (m.erase k).entries = m.entries.filter fun p => p.1 ≠ k := rfl
  rw [get?, get?, he, List.find?_filter]
  split
  · next h => simp [h]
  · next h =>
      congr 2
      funext p
      by_cases hp : p.1 = k' <;> simp [hp, h]

theorem contains_eq_isSome (m : OrderedMap α β) (k : α) : m.contains k = (m.get? k).isSome := by
  rw [contains, get?, Option.isSome_map, Bool.eq_iff_iff, List.find?_isSome, List.any_eq_true]

theorem contains_insert (m : OrderedMap α β) (k k' : α) (v : β) :
    (m.insert k v).contains k' = true ↔ k' = k ∨ m.contains k' = true := by
  rw [contains_eq_isSome, contains_eq_isSome, get?_insert]
  by_cases h : k' = k <;> simp [h]

theorem get?_foldl_insert (l : List (α × β)) (m : OrderedMap α β) (k : α) (v : β)
    (h : (l.map Prod.fst).Nodup) :
    (l.foldl (fun m p => m.insert p.1 p.2) m).get? k = some v ↔
      (k, v) ∈ l ∨ (k ∉ l.map Prod.fst ∧ m.get? k = some v) := by
  induction l generalizing m with
  | nil => simp
  | cons p rest ih =>
      obtain ⟨hp, hrest⟩ := List.nodup_cons.mp h
      rw [List.foldl_cons, ih _ hrest, get?_insert]
      by_cases hk : k = p.1
      · subst hk
        have hne : ∀ u, (p.1, u) ∉ rest := fun u hu => hp (List.mem_map.mpr ⟨_, hu, rfl⟩)
        rw [if_pos rfl]
        constructor
        · rintro (hm | ⟨_, he⟩)
          · exact absurd hm (hne v)
          · cases he
            exact Or.inl List.mem_cons_self
        · rintro (hm | ⟨hm, _⟩)
          · rcases List.mem_cons.mp hm with he | hm
            · exact Or.inr ⟨hp, congrArg (some ·.2) he.symm⟩
            · exact absurd hm (hne v)
          · exact absurd List.mem_cons_self hm
      · rw [if_neg hk, List.map_cons, List.mem_cons, List.mem_cons, not_or, and_assoc]
        have hne : (k, v) ≠ p := fun he => hk (congrArg Prod.fst he)
        simp only [hne, hk, false_or, not_false_eq_true, true_and]

theorem get?_ofList (l : List (α × β)) (h : (l.map Prod.fst).Nodup) (k : α) (v : β) :
    (ofList l).get? k = some v ↔ (k, v) ∈ l := by
  rw [ofList, get?_foldl_insert l ∅ k v h]
  simp

theorem get?_eq_some {v : β} : m.get? k = some v ↔ (k, v) ∈ m.entries := by
  rw [get?, Option.map_eq_some_iff]
  constructor
  · rintro ⟨p, hp, rfl⟩
    have hk : p.1 = k := by simpa using List.find?_some hp
    exact hk ▸ List.mem_of_find?_eq_some hp
  · intro h
    have hfound : (m.entries.find? fun p => p.1 = k).isSome = true :=
      List.find?_isSome.mpr ⟨(k, v), h, decide_eq_true rfl⟩
    obtain ⟨p, hp⟩ := Option.isSome_iff_exists.mp hfound
    have hk : p.1 = k := by simpa using List.find?_some hp
    have he := List.inj_on_of_nodup_map m.nodup (List.mem_of_find?_eq_some hp) h hk
    exact ⟨p, hp, congrArg Prod.snd he⟩

theorem mem_values {v : β} : v ∈ m.values ↔ ∃ k, m.get? k = some v := by
  simp only [values, List.mem_map, get?_eq_some, Prod.exists, exists_eq_right]

theorem map_values {f : β → α} (h : ∀ k v, m.get? k = some v → f v = k) : m.values.map f = m.keys := by
  rw [values, List.map_map, keys]
  exact List.map_congr_left fun p hp => h p.1 p.2 (get?_eq_some.mpr hp)

theorem put_of_not_mem (h : ∀ p ∈ l, p.1 ≠ k) (v : β) : put k v l = l ++ [(k, v)] := by
  induction l with
  | nil => rfl
  | cons p rest ih =>
      obtain ⟨hp, hrest⟩ := List.forall_mem_cons.mp h
      simp [put, hp, ih hrest]

theorem entries_insert_of_new (h : m.contains k = false) (v : β) :
    (m.insert k v).entries = m.entries ++ [(k, v)] := by
  refine put_of_not_mem (fun p hp he => ?_) v
  rw [contains, List.any_eq_false] at h
  exact h p hp (decide_eq_true he)

theorem entries_ofList (h : (l.map Prod.fst).Nodup) : (ofList l).entries = l := by
  have hrun (l : List (α × β)) (m : OrderedMap α β) (h : ((m.entries ++ l).map Prod.fst).Nodup) :
      (l.foldl (fun m p => m.insert p.1 p.2) m).entries = m.entries ++ l := by
    induction l generalizing m with
    | nil => exact (List.append_nil _).symm
    | cons p rest ih =>
        have hnew : m.contains p.1 = false := by
          refine List.any_eq_false.mpr fun q hq he => ?_
          rw [List.map_append, List.map_cons] at h
          exact (List.nodup_append.mp h).2.2 _ (List.mem_map_of_mem hq) p.1 List.mem_cons_self
            (of_decide_eq_true he)
        have hinsert := entries_insert_of_new hnew p.2
        rw [List.foldl_cons, ih, hinsert, List.append_assoc]
        · rfl
        · rwa [hinsert, List.append_assoc]
  exact hrun l ∅ h

theorem mem_put {v : β} {p : α × β} (h : p ∈ put k v l) : p = (k, v) ∨ p ∈ l := by
  induction l with
  | nil => exact Or.inl (List.mem_singleton.mp h)
  | cons q rest ih =>
      by_cases hq : q.1 = k
      · simp only [put, hq, if_true] at h
        rcases List.mem_cons.mp h with rfl | h
        · exact Or.inl rfl
        · exact Or.inr (List.mem_cons_of_mem q h)
      · simp only [put, hq, if_false] at h
        rcases List.mem_cons.mp h with rfl | h
        · exact Or.inr List.mem_cons_self
        · exact (ih h).imp_right (List.mem_cons_of_mem q)

theorem mem_entries_ofList {p : α × β} (h : p ∈ (ofList l).entries) : p ∈ l := by
  have hrun (l : List (α × β)) (m : OrderedMap α β)
      (h : p ∈ (l.foldl (fun m p => m.insert p.1 p.2) m).entries) :
      p ∈ m.entries ∨ p ∈ l := by
    induction l generalizing m with
    | nil => exact Or.inl h
    | cons q rest ih =>
        rcases ih _ h with h | h
        · rcases mem_put h with rfl | h
          · exact Or.inr List.mem_cons_self
          · exact Or.inl h
        · exact Or.inr (List.mem_cons_of_mem q h)
  rcases hrun l ∅ h with h | h
  · cases h
  · exact h

omit [DecidableEq α] in
@[simp] theorem mapValues_id (m : OrderedMap α β) : m.mapValues id = m := by
  cases m
  simp [mapValues]

theorem get?_mapValues (f : β → γ) (m : OrderedMap α β) (k : α) :
    (m.mapValues f).get? k = (m.get? k).map f := by
  simp only [get?, mapValues, List.find?_map, Option.map_map]
  rfl

theorem map_put (f : β → γ) (k : α) (v : β) (l : List (α × β)) :
    (put k v l).map (fun p => (p.1, f p.2)) = put k (f v) (l.map fun p => (p.1, f p.2)) := by
  induction l with
  | nil => rfl
  | cons p rest ih =>
      by_cases hp : p.1 = k
      · simp [put, hp]
      · simp [put, hp, ih]

theorem mapValues_ofList (f : β → γ) (l : List (α × β)) :
    (ofList l).mapValues f = ofList (l.map fun p => (p.1, f p.2)) := by
  have hrun (l : List (α × β)) (m : OrderedMap α β) :
      (l.foldl (fun m p => m.insert p.1 p.2) m).mapValues f =
        (l.map fun p => (p.1, f p.2)).foldl (fun m p => m.insert p.1 p.2) (m.mapValues f) := by
    induction l generalizing m with
    | nil => rfl
    | cons p rest ih =>
        rw [List.foldl_cons, ih, List.map_cons, List.foldl_cons]
        congr 1
        simp only [mapValues, insert, map_put]
  exact hrun l ∅

end VisualScript.OrderedMap
