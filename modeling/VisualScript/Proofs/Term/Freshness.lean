import Mathlib.Computability.StateTransition
import VisualScript.Proofs.Term.Names
import VisualScript.Text.Integer

namespace VisualScript.NameTable

open StateTransition

variable {base : String} {used : NameTable} {s s' : NameTable × String}

theorem isIdentifier_sanitize (declared : String) :
    Text.isIdentifier (sanitize declared).toList = true := by
  have hplain : (declared.toList.map fun c => if c.isAlphanum || c == '_' then c else '_').all
      (fun c => c.isAlphanum || c == '_') = true := by
    rw [List.all_map, List.all_eq_true]
    intro c _
    rw [Function.comp_apply]
    split
    · assumption
    · rfl
  simp only [sanitize]
  generalize declared.toList.map (fun c => if c.isAlphanum || c == '_' then c else '_') = cs at hplain
  cases cs with
  | nil => rfl
  | cons c cs =>
      dsimp only
      split
      · simpa [Text.isIdentifier] using hplain
      · next hc => simpa [Text.isIdentifier, hc] using hplain

theorem isIdentifier_numbered (h : Text.isIdentifier base.toList = true) (n : Nat) :
    Text.isIdentifier (numbered base n).toList = true := by
  have hdigits : ('_' :: Nat.toDigits 10 n).all (fun c => c.isAlphanum || c == '_') = true := by
    refine List.all_eq_true.mpr (List.forall_mem_cons.mpr ⟨rfl, fun c hc => ?_⟩)
    rw [Char.isAlphanum, Nat.isDigit_of_mem_toDigits (by decide) (by decide) hc, Bool.or_true,
      Bool.true_or]
  rw [toList_numbered]
  cases hbase : base.toList with
  | nil => simp [hbase, Text.isIdentifier] at h
  | cons c cs =>
      rw [hbase, Text.isIdentifier, Bool.and_eq_true] at h
      rw [List.cons_append, Text.isIdentifier, ← List.cons_append, List.all_append, h.1, h.2, hdigits]
      rfl

/-- While the candidate is taken, its number counts up, and the base with that number is tried next. -/
def advance (base : String) (s : NameTable × String) : Option (NameTable × String) :=
  (s.1.get? s.2).map fun n => (s.1.insert s.2 (n + 1), numbered base (n + 1))

theorem advance_eq_some : advance base s = some s' ↔
    ∃ n, s.1.get? s.2 = some n ∧ s' = (s.1.insert s.2 (n + 1), numbered base (n + 1)) := by
  rw [advance, Option.map_eq_some_iff]
  exact exists_congr fun n => and_congr_right fun _ => eq_comm

theorem reaches_search (base : String) (fuel : Nat) (used : NameTable) (candidate : String) :
    Reaches (advance base) (used, candidate) (search base fuel used candidate) := by
  induction fuel generalizing used candidate with
  | zero => exact .refl
  | succ fuel ih =>
      rw [search]
      cases hc : used.get? candidate with
      | none => exact .refl
      | some n => exact .head (advance_eq_some.mpr ⟨n, hc, rfl⟩) (ih _ _)

theorem fresh_mem_eval (used : NameTable) (declared : String) :
    ∃ last, (last, (used.fresh declared).1) ∈ eval (advance (sanitize declared))
      (used, sanitize declared) ∧
      (used.fresh declared).2 = last.insert (used.fresh declared).1 0 := by
  refine ⟨_, mem_eval.mpr ⟨reaches_search (sanitize declared) used.tries used (sanitize declared),
    ?_⟩, rfl⟩
  have hfree := contains_search (sanitize declared) used.tries used (sanitize declared)
    (used.fresh declared).1
  rw [fresh_free, OrderedMap.contains_eq_isSome, Option.isSome_eq_false_iff,
    Option.isNone_iff_eq_none] at hfree
  exact Option.map_eq_none_iff.mpr hfree

theorem fresh_cases (used : NameTable) (declared : String) :
    (used.fresh declared).1 = sanitize declared ∨ ∃ n, (used.fresh declared).1 =
      numbered (sanitize declared) n := by
  obtain ⟨last, hend, _⟩ := fresh_mem_eval used declared
  rcases Relation.ReflTransGen.cases_tail (mem_eval.mp hend).1 with he | ⟨s, _, hs⟩
  · exact Or.inl (Prod.mk.inj he).2
  · obtain ⟨n, _, he⟩ := advance_eq_some.mp hs
    exact Or.inr ⟨n + 1, (Prod.mk.inj he).2⟩

theorem isIdentifier_fresh (used : NameTable) (declared : String) :
    Text.isIdentifier (used.fresh declared).1.toList = true := by
  rcases fresh_cases used declared with he | ⟨n, he⟩
  · exact he ▸ isIdentifier_sanitize declared
  · exact he ▸ isIdentifier_numbered (isIdentifier_sanitize declared) n

theorem sanitize_prefix_fresh (used : NameTable) (declared : String) :
    (sanitize declared).toList <+: (used.fresh declared).1.toList := by
  rcases fresh_cases used declared with he | ⟨n, he⟩
  · rw [he]
  · rw [he, toList_numbered]
    exact List.prefix_append _ _

/-- Each number that was counted is borne by some name. -/
def Counted (bears : String → Prop) (used : NameTable) : Prop :=
  ∀ k n, used.get? k = some n → ∀ m < n, ∃ base, bears (numbered base (m + 1))

def Takes (s : NameTable × String) (name : String) : Prop := name = s.2 ∨ s.1.contains name = true

theorem Counted.advance (h : Counted (Takes s) s.1) (hs : advance base s = some s') :
    Counted (Takes s') s'.1 := by
  obtain ⟨n, hn, rfl⟩ := advance_eq_some.mp hs
  intro k n' hk m hm
  have hold (hm : ∃ b, Takes s (numbered b (m + 1))) :
      ∃ b, Takes (s.1.insert s.2 (n + 1), numbered base (n + 1)) (numbered b (m + 1)) :=
    hm.imp fun b hb => Or.inr ((OrderedMap.contains_insert _ _ _ _).mpr hb)
  rw [OrderedMap.get?_insert] at hk
  split at hk
  · cases hk
    rcases Nat.lt_or_eq_of_le (Nat.le_of_lt_succ hm) with hlt | rfl
    · exact hold (h _ _ hn m hlt)
    · exact ⟨base, Or.inl rfl⟩
  · exact hold (h k n' hk m hm)

theorem Counted.reaches (h : Counted (Takes s) s.1) (hs : Reaches (NameTable.advance base) s s') :
    Counted (Takes s') s'.1 := by
  induction hs with
  | refl => exact h
  | tail _ hs ih => exact ih.advance hs

theorem Counted.insert {name : String} (h : Counted (Takes (used, name)) used) :
    Counted ((used.insert name 0).contains · = true) (used.insert name 0) := by
  intro k n hk m hm
  rw [OrderedMap.get?_insert] at hk
  split at hk
  · cases hk
    exact absurd hm (Nat.not_lt_zero m)
  · exact (h k n hk m hm).imp fun b hb => (OrderedMap.contains_insert _ _ _ _).mpr hb

/-- What is asked of a table of names. -/
inductive Call where
  | fresh (declared : String)
  | reserve (name : String)

/-- The table after a call. A name that is taken cannot be reserved, and nothing changes. -/
def serve (used : NameTable) : Call → NameTable
  | .fresh declared => (used.fresh declared).2
  | .reserve name => (used.reserve? name).getD used

def serveAll (used : NameTable) (calls : List Call) : NameTable := calls.foldl serve used

section

variable (h : Counted (used.contains · = true) used)
include h

theorem Counted.le_size {k : String} {n : Nat} (hk : used.get? k = some n) : n ≤ used.size := by
  choose! root hroot using fun m (hm : m < n) => h k n hk m hm
  have hnodup : ((List.range n).map fun m => numbered (root m) (m + 1)).Nodup :=
    List.nodup_range.map fun m m' he => Nat.succ.inj (numbered_inj he)
  have hsubset : ((List.range n).map fun m => numbered (root m) (m + 1)) ⊆ used.keys := by
    intro name hname
    obtain ⟨m, hm, rfl⟩ := List.mem_map.mp hname
    exact (OrderedMap.contains_iff_mem_keys _ _).mp (hroot m (List.mem_range.mp hm))
  have hle := (hnodup.subperm hsubset).length_le
  rwa [List.length_map, List.length_range, OrderedMap.keys, List.length_map] at hle

theorem Counted.takes (candidate : String) : Counted (Takes (used, candidate)) used :=
  fun k n hk m hm => (h k n hk m hm).imp fun _ hb => Or.inr hb

theorem Counted.serve (c : Call) : Counted ((used.serve c).contains · = true) (used.serve c) := by
  cases c with
  | fresh declared =>
      obtain ⟨last, hend, he⟩ := fresh_mem_eval used declared
      rw [NameTable.serve, he]
      exact ((h.takes _).reaches (mem_eval.mp hend).1).insert
  | reserve name =>
      rw [NameTable.serve, reserve?]
      split
      · exact h
      · exact (h.takes name).insert

theorem Counted.serveAll (calls : List Call) :
    Counted ((used.serveAll calls).contains · = true) (used.serveAll calls) := by
  induction calls generalizing used with
  | nil => exact h
  | cons c rest ih => exact ih (h.serve c)

end

/-- Whatever was asked of the table before, the loop that looks for a name ends. The name was free
and is taken from then on, like all that were taken before; it is an identifier that starts with
what was asked for. No number counts beyond the number of names, so as long as that fits a word, so
do they. -/
theorem serveAll_fresh (calls : List Call) (declared : String) :
    let used := serveAll ∅ calls
    let name := (used.fresh declared).1
    let after := (used.fresh declared).2
    (∃ last, (last, name) ∈ eval (advance (sanitize declared)) (used, sanitize declared) ∧
      after = last.insert name 0) ∧
    used.contains name = false ∧
    (∀ other, after.contains other = true ↔ other = name ∨ used.contains other = true) ∧
    Text.isIdentifier name.toList = true ∧ (sanitize declared).toList <+: name.toList ∧
    ∀ {k : String} {n : Nat}, after.get? k = some n → n ≤ after.size := by
  intro used name after
  have hempty : Counted ((∅ : NameTable).contains · = true) ∅ := fun _ _ hk => by cases hk
  have hcounted : Counted (used.contains · = true) used := hempty.serveAll calls
  exact ⟨fresh_mem_eval used declared, fresh_free used declared, contains_fresh used declared,
    isIdentifier_fresh used declared,
    sanitize_prefix_fresh used declared, (hcounted.serve (.fresh declared)).le_size⟩

def vitals : NameTable := serveAll ∅ [.reserve "Health_1", .fresh "Health"]

/-- The reserved name is tried twice, the second time under its own number. -/
theorem vitals_fresh : (vitals.fresh "Health").1 = "Health_2" ∧ vitals.contains "Health_2" = false ∧
    Text.isIdentifier "Health_2".toList = true ∧ (vitals.fresh "Health").2.contains "Health_1" = true ∧
    (vitals.fresh "Health").2.get? "Health_1" = some 2 ∧ 2 ≤ (vitals.fresh "Health").2.size := by
  have hname : (vitals.fresh "Health").1 = "Health_2" := by decide +kernel
  have hnumber : (vitals.fresh "Health").2.get? "Health_1" = some 2 := by decide +kernel
  obtain ⟨_, hfree, htaken, hplain, _, hle⟩ :=
    serveAll_fresh [.reserve "Health_1", .fresh "Health"] "Health"
  have hreserved : vitals.contains "Health_1" = true := by decide +kernel
  exact ⟨hname, hname ▸ hfree, hname ▸ hplain, (htaken _).mpr (Or.inr hreserved), hnumber, hle hnumber⟩

end VisualScript.NameTable
