import Mathlib.Algebra.Group.Action.Defs
import Mathlib.Algebra.Order.BigOperators.Group.List
import VisualScript.Graph.Closure
import VisualScript.Proofs.OrderedMap
import VisualScript.Proofs.Text.Numerals
import VisualScript.Term.Names

namespace VisualScript

namespace OrderedMap

variable {α β : Type} [DecidableEq α]

theorem contains_iff_mem_keys (m : OrderedMap α β) (k : α) : m.contains k = true ↔ k ∈ m.keys := by
  rw [contains, keys, List.any_eq_true, List.mem_map]
  simp

theorem keys_insert_of_contains {m : OrderedMap α β} {k : α} (h : m.contains k = true) (v : β) :
    (m.insert k v).keys = m.keys := by
  have hk : k ∈ m.entries.map Prod.fst := (contains_iff_mem_keys m k).mp h
  rw [keys, insert, keys_put, if_pos hk]
  rfl

theorem sum_put {k : α} {old : β} {l : List (α × β)}
    (h : (l.find? fun p => p.1 = k).map Prod.snd = some old) (f : β → Nat) (v : β) :
    ((put k v l).map fun p => f p.2).sum + f old = (l.map fun p => f p.2).sum + f v := by
  induction l with
  | nil => cases h
  | cons p rest ih =>
      by_cases hp : p.1 = k
      · rw [List.find?_cons_of_pos (by simpa using hp)] at h
        cases h
        simp only [put, hp, if_true, List.map_cons, List.sum_cons]
        omega
      · rw [List.find?_cons_of_neg (by simpa using hp)] at h
        have hrest := ih h
        simp only [put, hp, if_false, List.map_cons, List.sum_cons]
        omega

end OrderedMap

namespace NameTable

variable {base : String} {used : NameTable}

theorem toList_numbered (base : String) (n : Nat) :
    (numbered base n).toList = base.toList ++ '_' :: Nat.toDigits 10 n := by
  simp [numbered]

theorem numbered_inj {base' : String} {n m : Nat} (h : numbered base n = numbered base' m) : n = m := by
  -- The digits are what stands behind the last underscore.
  have hdigits (base : String) (n : Nat) : (numbered base n).toList.rtakeWhile (· != '_') =
      Nat.toDigits 10 n := by
    rw [toList_numbered, List.rtakeWhile, List.reverse_append, List.reverse_cons, List.append_assoc,
      List.takeWhile_append_of_pos]
    · simp
    · intro c hc
      have hdigit := Nat.isDigit_of_mem_toDigits (by decide) (by decide) (List.mem_reverse.mp hc)
      rw [bne_iff_ne]
      rintro rfl
      cases hdigit
  have hsame : Nat.toDigits 10 n = Nat.toDigits 10 m := by rw [← hdigits base n, h, hdigits]
  calc n = Text.digitsValue (Nat.toDigits 10 n) := (Text.digitsValue_toDigits n).symm
    _ = Text.digitsValue (Nat.toDigits 10 m) := congrArg Text.digitsValue hsame
    _ = m := Text.digitsValue_toDigits m

open Classical in
/-- How many of the names are the base with a number that is yet to come. -/
noncomputable def ahead (base : String) (names : List String) (n : Nat) : Nat :=
  names.countP fun k => ∃ i, n < i ∧ k = numbered base i

theorem ahead_le (base : String) (names : List String) (n : Nat) :
    ahead base names n ≤ names.length := List.countP_le_length

theorem ahead_succ_lt {names : List String} {n : Nat} (h : numbered base (n + 1) ∈ names) :
    ahead base names (n + 1) < ahead base names n := by
  classical
  refine countP_lt_countP_of_mem h ?_ ?_ ?_
  · exact decide_eq_true ⟨n + 1, by omega, rfl⟩
  · refine decide_eq_false ?_
    rintro ⟨i, hi, he⟩
    have := numbered_inj he
    omega
  · intro k hk
    obtain ⟨i, hi, rfl⟩ := of_decide_eq_true hk
    exact decide_eq_true ⟨i, by omega, rfl⟩

/-- How often the search can still meet a name that is taken. -/
noncomputable def budget (base : String) (used : NameTable) : Nat :=
  (used.entries.map fun e => ahead base used.keys e.2).sum

theorem budget_le (base : String) (used : NameTable) : budget base used ≤ used.size * used.size := by
  have hkeys : used.keys.length = used.size := by rw [OrderedMap.keys, List.length_map, OrderedMap.size]
  have hbound : ∀ x ∈ used.entries.map fun e => ahead base used.keys e.2, x ≤ used.size := by
    intro x hx
    obtain ⟨e, _, rfl⟩ := List.mem_map.mp hx
    exact hkeys ▸ ahead_le base used.keys e.2
  have hsum := List.sum_le_card_nsmul _ _ hbound
  rwa [List.length_map, smul_eq_mul] at hsum

theorem budget_lt {candidate : String} {n : Nat} (hc : used.get? candidate = some n)
    (hnext : used.contains (numbered base (n + 1)) = true) :
    budget base (used.insert candidate (n + 1)) < budget base used := by
  have hkeys : (used.insert candidate (n + 1)).keys = used.keys := by
    apply OrderedMap.keys_insert_of_contains
    rw [OrderedMap.contains_eq_isSome, hc]
    rfl
  have hsum := OrderedMap.sum_put hc (fun n => ahead base used.keys n) (n + 1)
  have hlt := ahead_succ_lt ((OrderedMap.contains_iff_mem_keys _ _).mp hnext)
  rw [budget, budget, hkeys]
  have hentries : (used.insert candidate (n + 1)).entries =
      OrderedMap.put candidate (n + 1) used.entries := rfl
  rw [hentries]
  omega

theorem contains_search (base : String) (fuel : Nat) (used : NameTable) (candidate name : String) :
    (search base fuel used candidate).1.contains name = used.contains name := by
  induction fuel generalizing used candidate with
  | zero => rfl
  | succ fuel ih =>
      rw [search]
      cases hc : used.get? candidate with
      | none => rfl
      | some n =>
          refine (ih _ _).trans ?_
          rw [Bool.eq_iff_iff, OrderedMap.contains_insert]
          refine or_iff_right_of_imp ?_
          rintro rfl
          rw [OrderedMap.contains_eq_isSome, hc]
          rfl

theorem search_free {fuel : Nat} {candidate : String} (h : budget base used + 2 ≤ fuel) :
    used.contains (search base fuel used candidate).2 = false := by
  induction fuel generalizing used candidate with
  | zero => omega
  | succ fuel ih =>
      rw [search]
      cases hc : used.get? candidate with
      | none =>
          rw [OrderedMap.contains_eq_isSome, hc]
          rfl
      | some n =>
          have hsame (name : String) : (used.insert candidate (n + 1)).contains name =
              used.contains name := by
            have hone := contains_search base 1 used candidate name
            simpa only [search, hc] using hone
          cases hnext : used.contains (numbered base (n + 1)) with
          | true =>
              have hlt := budget_lt hc hnext
              have hfree : (used.insert candidate (n + 1)).contains
                  (search base fuel (used.insert candidate (n + 1)) (numbered base (n + 1))).2 =
                    false := ih (by omega)
              rwa [hsame] at hfree
          | false =>
              obtain ⟨fuel, rfl⟩ : ∃ m, fuel = m + 1 := ⟨fuel - 1, by omega⟩
              have hnone : (used.insert candidate (n + 1)).get? (numbered base (n + 1)) = none := by
                rw [← Option.not_isSome_iff_eq_none, ← OrderedMap.contains_eq_isSome, hsame, hnext]
                exact Bool.false_ne_true
              simp only [search, hnone]
              exact hnext

theorem fresh_free (used : NameTable) (declared : String) :
    used.contains (used.fresh declared).1 = false := by
  cases hb : used.get? (sanitize declared) with
  | none =>
      have hname : (used.fresh declared).1 = sanitize declared := by simp only [fresh, tries, search, hb]
      rw [hname, OrderedMap.contains_eq_isSome, hb]
      rfl
  | some n =>
      have hsize : 1 ≤ used.size := by
        obtain ⟨p, hp, _⟩ := Option.map_eq_some_iff.mp hb
        exact List.length_pos_of_mem (List.mem_of_find?_eq_some hp)
      have hbudget := budget_le (sanitize declared) used
      have henough : budget (sanitize declared) used + 2 ≤ used.tries := by
        rw [tries, Nat.mul_add]
        omega
      exact search_free henough

theorem contains_fresh (used : NameTable) (declared name : String) :
    (used.fresh declared).2.contains name = true ↔ name = (used.fresh declared).1 ∨
      used.contains name = true := by
  simp only [fresh]
  rw [OrderedMap.contains_insert, contains_search]

end NameTable

end VisualScript
