import Mathlib.Data.List.DropRight
import Mathlib.Data.List.Forall2
import VisualScript.Text.Blank

namespace VisualScript

theorem mapM_eq_pure_map {m : Type → Type} [Monad m] [LawfulMonad m] {α β : Type} {f : α → m β}
    {g : α → β} {l : List α} (h : ∀ a ∈ l, f a = pure (g a)) : l.mapM f = pure (l.map g) := by
  induction l with
  | nil => rfl
  | cons a l ih =>
      rw [List.mapM_cons, h a List.mem_cons_self, ih fun b hb => h b (List.mem_cons_of_mem _ hb),
        pure_bind, pure_bind,
        List.map_cons]

theorem mapM_eq_some_iff {α β : Type} {f : α → Option β} {l : List α} {bs : List β} :
    l.mapM f = some bs ↔ List.Forall₂ (fun a b => f a = some b) l bs := by
  induction l generalizing bs with
  | nil =>
      rw [List.forall₂_nil_left_iff]
      exact ⟨fun h => (Option.some.inj h).symm, fun h => congrArg some h.symm⟩
  | cons a l ih =>
      rw [List.mapM_cons, List.forall₂_cons_left_iff]
      constructor
      · intro h
        obtain ⟨b, hb, h⟩ := Option.bind_eq_some_iff.mp h
        obtain ⟨rest, hrest, h⟩ := Option.bind_eq_some_iff.mp h
        exact ⟨b, rest, hb, ih.mp hrest, (Option.some.inj h).symm⟩
      · rintro ⟨b, rest, hb, hrest, rfl⟩
        rw [hb, ih.mpr hrest]
        rfl

namespace Text

def Blank (s : List Char) : Prop := ∀ c ∈ s, isBlank c = true

/-- There may be blanks around what satisfies `P`. -/
def Padded (P : List Char → Prop) (s : List Char) : Prop :=
  ∃ before core after, s = before ++ (core ++ after) ∧ Blank before ∧ Blank after ∧ P core

/-- There is something, and no blank stands at either end of it. -/
structure Tight (s : List Char) : Prop where
  ne_nil : s ≠ []
  head : ∀ c, s.head? = some c → isBlank c = false
  last : ∀ c, s.getLast? = some c → isBlank c = false

variable {s : List Char}

theorem Blank.notMem (h : Blank s) {c : Char} (hc : isBlank c = false) :
    c ∉ s := fun hm => Bool.eq_false_iff.mp hc (h c hm)

theorem dropWhile_isBlank (h : ∀ c, s.head? = some c → isBlank c = false) : s.dropWhile isBlank = s := by
  cases s with
  | nil => rfl
  | cons c rest => rw [List.dropWhile_cons, h c rfl, if_neg Bool.false_ne_true]

theorem Tight.trim_between (h : Tight s) {before after : List Char} (hbefore : Blank before)
    (hafter : Blank after) :
    trim (before ++ (s ++ after)) = s := by
  obtain ⟨c, rest, rfl⟩ := List.exists_cons_of_ne_nil h.ne_nil
  have hleft : trimLeft (before ++ (c :: rest ++ after)) = c :: rest ++ after := by
    rw [trimLeft, List.dropWhile_append_of_pos hbefore]
    exact dropWhile_isBlank h.head
  rw [trim, hleft, trimRight, List.reverse_append,
    List.dropWhile_append_of_pos fun c hc => hafter c (List.mem_reverse.mp hc),
    dropWhile_isBlank, List.reverse_reverse]
  rw [List.head?_reverse]
  exact h.last

theorem exists_trim (s : List Char) :
    ∃ before after, s = before ++ (trim s ++ after) ∧ Blank before ∧ Blank after := by
  refine ⟨s.takeWhile isBlank, ((trimLeft s).reverse.takeWhile isBlank).reverse, ?_, ?_, ?_⟩
  · rw [trim, trimRight, ← List.reverse_append, List.takeWhile_append_dropWhile,
      List.reverse_reverse, trimLeft,
      List.takeWhile_append_dropWhile]
  · exact fun c hc => List.mem_takeWhile_imp hc
  · exact fun c hc => List.mem_takeWhile_imp (List.mem_reverse.mp hc)

theorem trim_eq_nil_iff : trim s = [] ↔ Blank s := by
  constructor
  · intro h
    obtain ⟨before, after, hs, hbefore, hafter⟩ := exists_trim s
    rw [h, List.nil_append] at hs
    exact hs ▸ fun c hc => (List.mem_append.mp hc).elim (hbefore c) (hafter c)
  · intro h
    rw [trim, trimLeft, List.dropWhile_eq_nil_iff.mpr h]
    rfl

theorem padded_iff {P : List Char → Prop} (hP : ∀ t, P t → Tight t) : Padded P s ↔ P (trim s) := by
  constructor
  · rintro ⟨before, core, after, rfl, hbefore, hafter, hcore⟩
    rwa [(hP core hcore).trim_between hbefore hafter]
  · intro h
    obtain ⟨before, after, hs, hbefore, hafter⟩ := exists_trim s
    exact ⟨before, trim s, after, hs, hbefore, hafter, h⟩

variable {c : Char}

theorem splitAt_of_notMem (h : c ∉ s) : splitAt c s = [s] := by
  induction s with
  | nil => rfl
  | cons d s ih =>
      rw [splitAt, if_neg (List.ne_of_not_mem_cons h).symm, ih (List.not_mem_of_not_mem_cons h)]

theorem splitAt_append (h : c ∉ s) (rest : List Char) :
    splitAt c (s ++ c :: rest) = s :: splitAt c rest := by
  induction s with
  | nil => rw [List.nil_append, splitAt, if_pos rfl]
  | cons d s ih =>
      rw [List.cons_append, splitAt, if_neg (List.ne_of_not_mem_cons h).symm,
        ih (List.not_mem_of_not_mem_cons h)]

theorem splitAt_eq_splitOn (c : Char) (s : List Char) : splitAt c s = s.splitOn c := by
  induction s with
  | nil => rfl
  | cons d s ih =>
      rw [splitAt, ih, List.splitOn_cons_eq_if_modifyHead]
      by_cases h : d = c
      · rw [if_pos h, if_pos (beq_iff_eq.mpr h)]
      · rw [if_neg h, if_neg (mt beq_iff_eq.mp h)]
        cases hs : s.splitOn c with
        | nil => exact absurd hs (List.splitOn_ne_nil c s)
        | cons => rfl

theorem splitAt_append_left {before : List Char} (h : c ∉ before) (s : List Char) :
    ∃ first rest, splitAt c s = first :: rest ∧ splitAt c (before ++ s) = (before ++ first) :: rest := by
  induction before with
  | nil =>
      have hne : splitAt c s ≠ [] := splitAt_eq_splitOn c s ▸ List.splitOn_ne_nil c s
      obtain ⟨first, rest, hs⟩ := List.exists_cons_of_ne_nil hne
      exact ⟨first, rest, hs, hs⟩
  | cons d before ih =>
      obtain ⟨first, rest, hs, hbs⟩ := ih (List.not_mem_of_not_mem_cons h)
      refine ⟨first, rest, hs, ?_⟩
      rw [List.cons_append, splitAt, if_neg (List.ne_of_not_mem_cons h).symm, hbs]
      rfl

theorem splitAt_append_right {after : List Char} (h : c ∉ after) (s : List Char) :
    ∃ front last, splitAt c s = front ++ [last] ∧ splitAt c (s ++ after) = front ++ [last ++ after] := by
  induction s with
  | nil => exact ⟨[], [], rfl, splitAt_of_notMem h⟩
  | cons d s ih =>
      obtain ⟨front, last, hs, hsa⟩ := ih
      rw [List.cons_append, splitAt, splitAt, hs, hsa]
      split
      · exact ⟨[] :: front, last, rfl, rfl⟩
      · cases front with
        | nil => exact ⟨[], d :: last, rfl, rfl⟩
        | cons p front => exact ⟨(d :: p) :: front, last, rfl, rfl⟩

theorem trim_pad {before after : List Char} (hbefore : Blank before) (hafter : Blank after)
    (s : List Char) :
    trim (before ++ (s ++ after)) = trim s := by
  rw [trim, trimLeft, List.dropWhile_append_of_pos hbefore, List.dropWhile_append, trim, trimLeft]
  split
  · next h => rw [List.dropWhile_eq_nil_iff.mpr hafter, List.isEmpty_iff.mp h]
  · rw [trimRight, List.reverse_append,
      List.dropWhile_append_of_pos fun c hc => hafter c (List.mem_reverse.mp hc), trimRight]

theorem map_trim_splitAt_trim (hc : isBlank c = false) (s : List Char) :
    (splitAt c (trim s)).map trim = (splitAt c s).map trim := by
  obtain ⟨before, after, hs, hbefore, hafter⟩ := exists_trim s
  obtain ⟨first, rest, hfirst, hall⟩ := splitAt_append_left (hbefore.notMem hc) (trim s ++ after)
  obtain ⟨front, last, hlast, hright⟩ := splitAt_append_right (hafter.notMem hc) (trim s)
  have hbefore' : trim (before ++ first) = trim first := by
    simpa using trim_pad hbefore (List.forall_mem_nil _) first
  have hafter' : trim (last ++ after) = trim last := by
    simpa using trim_pad (List.forall_mem_nil _) hafter last
  conv => rhs; rw [hs, hall, List.map_cons, hbefore', ← List.map_cons, ← hfirst, hright]
  rw [hlast, List.map_append, List.map_append, List.map_singleton, List.map_singleton, hafter']

/-- There is something, with no blank in it and no separator `c`. -/
structure Solid (c : Char) (s : List Char) : Prop where
  ne_nil : s ≠ []
  plain : ∀ d ∈ s, isBlank d = false ∧ d ≠ c

theorem Solid.tight (h : Solid c s) : Tight s where
  ne_nil := h.ne_nil
  head d hd := (h.plain d (List.mem_of_head? hd)).1
  last d hd := (h.plain d (List.mem_of_getLast? hd)).1

theorem Solid.notMem_between {before after : List Char} (h : Solid c s) (hbefore : c ∉ before)
    (hafter : c ∉ after) :
    c ∉ before ++ (s ++ after) := by
  simp only [List.mem_append, not_or]
  exact ⟨hbefore, fun hm => (h.plain _ hm).2 rfl, hafter⟩

theorem Padded.solid {P : List Char → Prop} (hP : ∀ t, P t → Solid c t) (hc : isBlank c = false)
    (h : Padded P s) :
    c ∉ s ∧ ¬ Blank s := by
  obtain ⟨before, core, after, rfl, hbefore, hafter, hcore⟩ := h
  obtain ⟨d, rest, rfl⟩ := List.exists_cons_of_ne_nil (hP core hcore).ne_nil
  refine ⟨?_, fun hblank => ?_⟩
  · simp only [List.mem_append, not_or]
    exact ⟨hbefore.notMem hc, fun hm => ((hP _ hcore).plain c hm).2 rfl, hafter.notMem hc⟩
  · exact Bool.eq_false_iff.mp ((hP _ hcore).plain d List.mem_cons_self).1 (hblank d (by simp))

theorem not_blank_intercalate {sep piece : List Char} (h : ¬ Blank piece) (rest : List (List Char)) :
    ¬ Blank (sep.intercalate (piece :: rest)) := by
  refine mt (fun hblank c hc => hblank c ?_) h
  cases rest with
  | nil => rwa [List.intercalate_singleton]
  | cons next rest =>
      rw [List.intercalate_cons_cons]
      exact List.mem_append_left _ (List.mem_append_left _ hc)

theorem trim_intercalate_ne_nil (sep : List Char) (h : Solid c s) (rest : List (List Char)) :
    trim (sep.intercalate (s :: rest)) ≠ [] := by
  obtain ⟨d, t, rfl⟩ := List.exists_cons_of_ne_nil h.ne_nil
  refine mt trim_eq_nil_iff.mp (not_blank_intercalate (fun hblank => ?_) rest)
  exact Bool.eq_false_iff.mp (h.plain d List.mem_cons_self).1 (hblank d List.mem_cons_self)

theorem blank_space : Blank [' '] := List.forall_mem_singleton.mpr (by decide)

theorem map_trim_splitAt (hc : isBlank c = false) {before : List Char} (hbefore : Blank before)
    (p : List Char) (rest : List (List Char)) (h : ∀ q ∈ p :: rest, Solid c q) :
    (splitAt c (before ++ [' ', c, ' '].intercalate (p :: rest))).map trim = p :: rest := by
  have hp := h p List.mem_cons_self
  induction rest generalizing before p with
  | nil =>
      have hlast : before ++ (p ++ []) = before ++ p := by rw [List.append_nil]
      rw [List.intercalate_singleton, ← hlast,
        splitAt_of_notMem (hp.notMem_between (hbefore.notMem hc) List.not_mem_nil),
        List.map_singleton, hp.tight.trim_between hbefore (List.forall_mem_nil _)]
  | cons q rest ih =>
      have htext : before ++ [' ', c, ' '].intercalate (p :: q :: rest) =
          (before ++ (p ++ [' '])) ++ c :: ([' '] ++ [' ', c, ' '].intercalate (q :: rest)) := by
        rw [List.intercalate_cons_cons]
        simp
      have hq : ∀ w ∈ q :: rest, Solid c w := fun w hw => h w (List.mem_cons_of_mem _ hw)
      rw [htext, splitAt_append (hp.notMem_between (hbefore.notMem hc) (blank_space.notMem hc)),
        List.map_cons,
        hp.tight.trim_between hbefore blank_space, ih blank_space q hq (hq q List.mem_cons_self)]

end Text

end VisualScript
