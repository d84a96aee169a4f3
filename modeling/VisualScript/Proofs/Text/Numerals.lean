import Mathlib.Data.Nat.Digits.Defs
import VisualScript.Proofs.Text.Splitting
import VisualScript.Text.Integer

namespace VisualScript.Text

variable {s : List Char} {base : Nat}

theorem toDigits_mapM (hbase : 1 < base) (digit? : Char → Option Nat)
    (hdigit : ∀ k < base, digit? (Nat.digitChar k) = some k) (n : Nat) :
    (Nat.toDigits base n).mapM digit? = some ((Nat.toDigits base n).filterMap digit?) ∧
      valueOf base ((Nat.toDigits base n).filterMap digit?) = n := by
  induction n using Nat.strongRecOn with
  | ind n ih =>
      rcases Nat.lt_or_ge n base with hn | hn
      · simp [Nat.toDigits_of_lt_base hn, hdigit n hn, valueOf]
      · obtain ⟨hdigits, hvalue⟩ := ih (n / base) (Nat.div_lt_self (by omega) hbase)
        have hlast := hdigit (n % base) (Nat.mod_lt n (by omega))
        refine ⟨by simp [Nat.toDigits_of_base_le hbase hn, hdigits, hlast], ?_⟩
        rw [Nat.toDigits_of_base_le hbase hn, List.filterMap_append, valueOf, List.foldl_append,
          ← valueOf, hvalue]
        simp [hlast, Nat.div_add_mod']

theorem head?_toDigits (hbase : 1 < base) (hdigit : ∀ k < base, Nat.digitChar k = '0' → k = 0) {n : Nat}
    (h : (Nat.toDigits base n).head? = some '0') : n = 0 := by
  induction n using Nat.strongRecOn with
  | ind n ih =>
      rcases Nat.lt_or_ge n base with hn | hn
      · rw [Nat.toDigits_of_lt_base hn] at h
        exact hdigit n hn (by simpa using h)
      · rw [Nat.toDigits_of_base_le hbase hn, List.head?_append_of_ne_nil _ Nat.toDigits_ne_nil] at h
        have hzero := ih (n / base) (Nat.div_lt_self (by omega) hbase) h
        have hpos : 0 < n / base := Nat.div_pos hn (by omega)
        omega

theorem digitsValue_toDigits (n : Nat) : digitsValue (Nat.toDigits 10 n) = n :=
  (toDigits_mapM (by decide) digit? (by decide) n).2

theorem exists_of_mem_toDigits (hbase : 1 < base) {n : Nat} {c : Char} (h : c ∈ Nat.toDigits base n) :
    ∃ k < base, c = Nat.digitChar k := by
  induction n using Nat.strongRecOn with
  | ind n ih =>
      rcases Nat.lt_or_ge n base with hn | hn
      · rw [Nat.toDigits_of_lt_base hn, List.mem_singleton] at h
        exact ⟨n, hn, h⟩
      · rw [Nat.toDigits_of_base_le hbase hn, List.mem_append, List.mem_singleton] at h
        rcases h with h | h
        · exact ih (n / base) (Nat.div_lt_self (by omega) hbase) h
        · exact ⟨n % base, Nat.mod_lt n (by omega), h⟩

theorem hex32?_hex {n : Nat} (h : n < 4294967296) : hex32? (hex n).toList = some (UInt32.ofNat n) := by
  obtain ⟨hdigits, hvalue⟩ := toDigits_mapM (by decide : 1 < 16) hexDigit? (by decide) n
  have hunsigned : unsigned? 16 hexDigit? (Nat.toDigits 16 n) =
      natural? 16 hexDigit? (Nat.toDigits 16 n) := by
    obtain ⟨c, cs, hcs⟩ := List.exists_cons_of_ne_nil (Nat.toDigits_ne_nil (b := 16) (n := n))
    obtain ⟨k, hk, hc⟩ := exists_of_mem_toDigits (by decide : 1 < 16)
      (hcs ▸ List.mem_cons_self : c ∈ Nat.toDigits 16 n)
    have hsign : ∀ k < 16, Nat.digitChar k ≠ '+' := by decide
    have hplus : c ≠ '+' := hc ▸ hsign k hk
    rw [hcs, unsigned?]
    exact fun rest he => hplus (List.cons.inj he).1
  rw [hex32?, hex, String.toList_ofList, hunsigned, natural?, hdigits, if_neg (by simp)]
  simp [hvalue, h]

def Digits (s : List Char) : Prop := s ≠ [] ∧ ∀ c ∈ s, c.isDigit = true

def decimal (s : List Char) : Nat := Nat.ofDigits 10 (s.reverse.map fun c => c.toNat - '0'.toNat)

/-- How an integer is written: digits with or without a sign. -/
inductive Numeral : List Char → Int → Prop
  | plain {s : List Char} (h : Digits s) : Numeral s (decimal s)
  | plus {s : List Char} (h : Digits s) : Numeral ('+' :: s) (decimal s)
  | minus {s : List Char} (h : Digits s) : Numeral ('-' :: s) (-(decimal s : Int))

theorem digit?_eq_some_iff {c : Char} {d : Nat} :
    digit? c = some d ↔ c.isDigit = true ∧ d = c.toNat - '0'.toNat := by
  have hrange : '0' ≤ c ∧ c ≤ '9' ↔ c.isDigit = true := by
    simp only [Char.isDigit, Bool.and_eq_true, decide_eq_true_eq]
    rfl
  rw [digit?]
  split
  · next h => exact ⟨fun he => ⟨hrange.mp h, (Option.some.inj he).symm⟩, fun he => congrArg some he.2.symm⟩
  · next h =>
      exact ⟨fun he => absurd he.symm (Option.some_ne_none d), fun he => absurd (hrange.mpr he.1) h⟩

theorem natural?_eq_some_iff {n : Nat} : natural? 10 digit? s = some n ↔ Digits s ∧ n = decimal s := by
  have hdigits (s : List Char) {ds : List Nat} : s.mapM digit? = some ds ↔
      (∀ c ∈ s, c.isDigit = true) ∧ ds = s.map fun c => c.toNat - '0'.toNat := by
    rw [mapM_eq_some_iff]
    induction s generalizing ds with
    | nil => simp
    | cons c s ih =>
        rw [List.forall₂_cons_left_iff, List.forall_mem_cons, List.map_cons]
        constructor
        · rintro ⟨d, ds, hd, hds, rfl⟩
          obtain ⟨hc, rfl⟩ := digit?_eq_some_iff.mp hd
          obtain ⟨hs, rfl⟩ := ih.mp hds
          exact ⟨⟨hc, hs⟩, rfl⟩
        · rintro ⟨⟨hc, hs⟩, rfl⟩
          exact ⟨_, _, digit?_eq_some_iff.mpr ⟨hc, rfl⟩, ih.mpr ⟨hs, rfl⟩, rfl⟩
  have hvalue (ds : List Nat) : valueOf 10 ds = Nat.ofDigits 10 ds.reverse := by
    rw [valueOf, List.foldl_eq_foldr_reverse, Nat.ofDigits_eq_foldr]
    congr
    funext d n
    rw [Nat.mul_comm, Nat.add_comm]
    rfl
  rw [natural?]
  split
  · next h =>
      exact ⟨fun he => absurd he.symm (Option.some_ne_none n),
        fun he => absurd (List.isEmpty_iff.mp h) he.1.1⟩
  · next h =>
    simp only [Option.map_eq_some_iff, hdigits, hvalue]
    rw [Digits, decimal, List.map_reverse]
    refine ⟨?_, fun he => ⟨_, ⟨he.1.2, rfl⟩, he.2.symm⟩⟩
    rintro ⟨ds, ⟨hs, rfl⟩, rfl⟩
    exact ⟨⟨mt List.isEmpty_iff.mpr h, hs⟩, rfl⟩

theorem Digits.not_sign (h : Digits s) : ∀ rest, s ≠ '+' :: rest ∧ s ≠ '-' :: rest := by
  intro rest
  refine ⟨?_, ?_⟩ <;>
  · rintro rfl
    exact absurd (h.2 _ List.mem_cons_self) (by decide)

theorem signed?_eq_some_iff {n : Int} : signed? s = some n ↔ Numeral s n := by
  constructor
  · intro h
    unfold signed? at h
    split at h <;> obtain ⟨m, hm, rfl⟩ := Option.map_eq_some_iff.mp h
    · obtain ⟨k, hk, hm⟩ := Option.bind_eq_some_iff.mp hm
      obtain ⟨hs, rfl⟩ := natural?_eq_some_iff.mp hk
      cases hm
      exact .minus hs
    · obtain ⟨hs, rfl⟩ := natural?_eq_some_iff.mp hm
      exact .plus hs
    · obtain ⟨hs, rfl⟩ := natural?_eq_some_iff.mp hm
      exact .plain hs
  · intro h
    cases h with
    | plus hs | minus hs => rw [signed?, natural?_eq_some_iff.mpr ⟨hs, rfl⟩]; rfl
    | plain hs =>
        rw [signed?, natural?_eq_some_iff.mpr ⟨hs, rfl⟩]
        · rfl
        · exact fun rest => (hs.not_sign rest).2
        · exact fun rest => (hs.not_sign rest).1

theorem unsigned?_eq_some_iff {n : Nat} :
    unsigned? 10 digit? s = some n ↔ Numeral s n ∧ s.head? ≠ some '-' := by
  constructor
  · intro h
    unfold unsigned? at h
    split at h <;> obtain ⟨hs, rfl⟩ := natural?_eq_some_iff.mp h
    · exact ⟨.plus hs, by simp⟩
    · refine ⟨.plain hs, fun hminus => ?_⟩
      obtain ⟨rest, hrest⟩ := List.head?_eq_some_iff.mp hminus
      exact (hs.not_sign rest).2 hrest
  · rintro ⟨h, hminus⟩
    generalize hn : (n : Int) = m at h
    cases h with
    | plus hs =>
        rw [unsigned?, natural?_eq_some_iff]
        exact ⟨hs, Int.ofNat.inj hn⟩
    | minus => exact absurd rfl hminus
    | plain hs =>
        rw [unsigned?, natural?_eq_some_iff]
        · exact ⟨hs, Int.ofNat.inj hn⟩
        · exact fun rest => (hs.not_sign rest).1

/-- What is printed for an integer is a numeral for it, with a sign only below zero. -/
theorem numeral_toString (n : Int) :
    Numeral (toString n).toList n ∧ (0 ≤ n → (toString n).toList.head? ≠ some '-') := by
  have hdigits (m : Nat) : Digits (Nat.toDigits 10 m) ∧ m = decimal (Nat.toDigits 10 m) := by
    obtain ⟨hmap, hvalue⟩ := toDigits_mapM (by decide : 1 < 10) digit? (by decide) m
    refine natural?_eq_some_iff.mp ?_
    rw [natural?, hmap, if_neg (by simp), Option.map_some, hvalue]
  cases n with
  | ofNat m =>
      have htext : (toString (Int.ofNat m)).toList = Nat.toDigits 10 m := String.toList_ofList
      have hnum := Numeral.plain (hdigits m).1
      rw [← (hdigits m).2] at hnum
      rw [htext]
      refine ⟨hnum, fun _ hminus => ?_⟩
      obtain ⟨rest, hrest⟩ := List.head?_eq_some_iff.mp hminus
      exact ((hdigits m).1.not_sign rest).2 hrest
  | negSucc m =>
      have htext : (toString (Int.negSucc m)).toList = '-' :: Nat.toDigits 10 (m + 1) := by
        have happend : toString (Int.negSucc m) = "-" ++ String.ofList (Nat.toDigits 10 (m + 1)) := rfl
        simp [happend]
      have hnum := Numeral.minus (hdigits (m + 1)).1
      rw [← (hdigits (m + 1)).2] at hnum
      rw [htext]
      exact ⟨hnum, fun hpos => absurd hpos (Int.not_le.mpr (Int.negSucc_lt_zero m))⟩

theorem plain_of_isAlphanum {c : Char} (h : c.isAlphanum = true) : isBlank c = false ∧ c ≠ ',' := by
  have hupper (h : c.isUpper = true) : 65 ≤ c.toNat ∧ c.toNat ≤ 90 := of_decide_eq_true h
  have hlower (h : c.isLower = true) : 97 ≤ c.toNat ∧ c.toNat ≤ 122 :=
    (Bool.and_eq_true_iff.mp h).imp of_decide_eq_true of_decide_eq_true
  have hdigit (h : c.isDigit = true) : 48 ≤ c.toNat ∧ c.toNat ≤ 57 :=
    (Bool.and_eq_true_iff.mp h).imp of_decide_eq_true of_decide_eq_true
  have hcases : (c.isUpper || c.isLower || c.isDigit) = true := h
  rw [Bool.or_eq_true, Bool.or_eq_true] at hcases
  have hrange := hcases.imp (Or.imp hupper hlower) hdigit
  refine ⟨by simp [isBlank]; omega, ?_⟩
  rintro rfl
  exact absurd h (by decide)

theorem isAlpha_of_toLower {c : Char} (h : c.toLower.isAlpha = true) : c.isAlpha = true := by
  cases hupper : c.isUpper with
  | true => exact Bool.or_eq_true_iff.mpr (Or.inl hupper)
  | false =>
      have hsame : c.toLower = c :=
        dif_neg fun hrange => Bool.eq_false_iff.mp hupper (decide_eq_true hrange)
      rwa [hsame] at h

theorem Numeral.solid {n : Int} (h : Numeral s n) : Solid ',' s := by
  have hdigits {t : List Char} (ht : Digits t) : ∀ d ∈ t, isBlank d = false ∧ d ≠ ',' :=
    fun d hd => plain_of_isAlphanum (by rw [Char.isAlphanum, ht.2 d hd, Bool.or_true])
  cases h with
  | plain hs => exact ⟨hs.1, hdigits hs⟩
  | plus hs => exact ⟨List.cons_ne_nil _ _, List.forall_mem_cons.mpr ⟨by decide, hdigits hs⟩⟩
  | minus hs => exact ⟨List.cons_ne_nil _ _, List.forall_mem_cons.mpr ⟨by decide, hdigits hs⟩⟩

end VisualScript.Text
