import VisualScript.Proofs.Text.Numerals
import VisualScript.Signature.Flags

namespace VisualScript.Flags

theorem ext_bits {a b : Flags} (h : a.bits.toBitVec = b.bits.toBitVec) : a = b := by
  cases a
  cases b
  exact congrArg Flags.mk (UInt32.toBitVec_inj.mp h)

theorem empty_union (a : Flags) : union {} a = a := by
  apply ext_bits
  simp [union]

theorem union_assoc (a b c : Flags) : (a.union b).union c = a.union (b.union c) := by
  simp only [union, UInt32.or_assoc]

theorem foldl_union (flags : List Flags) (a : Flags) :
    flags.foldl union a = a.union (flags.foldl union {}) := by
  induction flags generalizing a with
  | nil => simp [union]
  | cons b rest ih => rw [List.foldl_cons, ih, union_assoc, List.foldl_cons, empty_union, ← ih b]

theorem inter_union (a b c : Flags) : a.inter (b.union c) = (a.inter b).union (a.inter c) := by
  apply ext_bits
  simp only [union, inter, UInt32.toBitVec_or, UInt32.toBitVec_and]
  exact BitVec.and_or_distrib_left

theorem inter_union_diff (a b : Flags) : (a.inter b).union (a.diff b) = a := by
  apply ext_bits
  simp only [union, inter, diff, UInt32.toBitVec_or, UInt32.toBitVec_and, UInt32.toBitVec_not]
  ext i hi
  simp only [BitVec.getElem_or, BitVec.getElem_and, BitVec.getElem_not]
  cases a.bits.toBitVec[i] <;> simp

theorem inter_eq_of_single (a : Flags) {b : Flags} (h : ∃ i < 32, b.bits.toBitVec = BitVec.twoPow 32 i) :
    a.inter b = if a.contains b then b else {} := by
  obtain ⟨i, -, hi⟩ := h
  have hand : (a.bits &&& b.bits).toBitVec = if a.bits.toBitVec.getLsbD i =
      true then b.bits.toBitVec else 0#32 := by
    rw [UInt32.toBitVec_and, hi, BitVec.and_twoPow]
  by_cases hset : a.bits.toBitVec.getLsbD i = true
  · rw [if_pos hset] at hand
    have hcontains : a.contains b = true := decide_eq_true (UInt32.toBitVec_inj.mp hand)
    rw [hcontains, if_pos rfl]
    exact ext_bits hand
  · rw [if_neg hset] at hand
    have hempty : a.inter b = {} := ext_bits hand
    split
    · next hcontains => exact congrArg Flags.mk (of_decide_eq_true hcontains)
    · exact hempty

theorem foldl_union_filter {flags : List (String × Flags)}
    (h : ∀ p ∈ flags, ∃ i < 32, p.2.bits.toBitVec = BitVec.twoPow 32 i) (a : Flags) :
    ((flags.filter fun p => a.contains p.2).map Prod.snd).foldl union {} =
      a.inter ((flags.map Prod.snd).foldl union {}) := by
  induction flags with
  | nil => simp [inter]
  | cons p rest ih =>
      have hrest := ih fun q hq => h q (List.mem_cons_of_mem _ hq)
      have hp := inter_eq_of_single a (h p List.mem_cons_self)
      rw [List.map_cons, List.foldl_cons, empty_union, foldl_union _ p.2, inter_union, hp, ← hrest,
        List.filter_cons]
      split
      · rw [List.map_cons, List.foldl_cons, empty_union, ← foldl_union]
      · rw [empty_union]

theorem solid_of_mem_names : ∀ p ∈ names, Text.Solid '|' p.1.toList ∧ piece? p.1.toList = some p.2 := by
  have hplain : ∀ p ∈ names, p.1.toList ≠ [] ∧
      (p.1.toList.all fun c => !Text.isBlank c && c != '|') = true ∧
      piece? p.1.toList = some p.2 := by decide +kernel
  intro p hp
  obtain ⟨hne, hall, hpiece⟩ := hplain p hp
  simp only [List.all_eq_true, Bool.and_eq_true, Bool.not_eq_true', bne_iff_ne] at hall
  exact ⟨⟨hne, hall⟩, hpiece⟩

theorem solid_hex (n : Nat) : Text.Solid '|' ("0x" ++ Text.hex n).toList := by
  have hdigits : ∀ k < 16, Text.isBlank (Nat.digitChar k) = false ∧ Nat.digitChar k ≠ '|' := by decide
  simp only [Text.hex, String.toList_append, String.toList_ofList]
  refine ⟨by simp, fun c hc => ?_⟩
  rcases List.mem_append.mp hc with hc | hc
  · rcases List.mem_pair.mp hc with rfl | rfl <;> decide
  · obtain ⟨k, hk, rfl⟩ := Text.exists_of_mem_toDigits (by decide : 1 < 16) hc
    exact hdigits k hk

def pieces (a : Flags) : List (String × Flags) :=
  (names.filter fun p => a.contains p.2) ++
    if (a.diff known).isEmpty then [] else [("0x" ++ Text.hex (a.diff known).bits.toNat, a.diff known)]

theorem solid_of_mem_pieces {a : Flags} {p : String × Flags} (h : p ∈ a.pieces) :
    Text.Solid '|' p.1.toList ∧ piece? p.1.toList = some p.2 := by
  rcases List.mem_append.mp h with h | h
  · exact solid_of_mem_names p (List.mem_of_mem_filter h)
  · split at h
    · cases h
    · obtain rfl := List.mem_singleton.mp h
      refine ⟨solid_hex _, ?_⟩
      rw [String.toList_append]
      have hhex := Text.hex32?_hex (a.diff known).bits.toNat_lt
      simp [piece?, hhex]

theorem foldl_pieces (a : Flags) : (a.pieces.map Prod.snd).foldl union {} = a := by
  have hsingle : ∀ p ∈ names, ∃ i < 32, p.2.bits.toBitVec = BitVec.twoPow 32 i := by decide
  have hknown : (names.map Prod.snd).foldl union {} = known := by decide
  rw [pieces, List.map_append, List.foldl_append, foldl_union_filter hsingle, hknown]
  have hall := inter_union_diff a known
  split
  · next hempty =>
      have hnone : a.diff known = {} := congrArg Flags.mk (of_decide_eq_true hempty)
      rw [hnone] at hall
      simpa [union] using hall
  · exact hall

theorem text_eq (a : Flags) : a.text = " | ".intercalate (a.pieces.map Prod.fst) := by
  rw [text, setNames, pieces, List.map_append]
  split <;> rfl

/-- Flags are read as they are written, the unknown ones too. -/
theorem ofText?_text (a : Flags) : ofText? a.text = some a := by
  have htext : a.text.toList = [' ', '|', ' '].intercalate (a.pieces.map fun p => p.1.toList) := by
    rw [text_eq, String.toList_intercalate, List.map_map]
    rfl
  have hunion := a.foldl_pieces
  rw [ofText?, htext]
  cases hpieces : a.pieces with
  | nil =>
      rw [hpieces] at hunion
      rw [← hunion]
      rfl
  | cons p rest =>
      have hword : ∀ q ∈ p :: rest, Text.Solid '|' q.1.toList ∧ piece? q.1.toList = some q.2 :=
        fun q hq => solid_of_mem_pieces (hpieces ▸ hq)
      have hwords : ∀ w ∈ p.1.toList :: rest.map (fun q => q.1.toList), Text.Solid '|' w :=
        List.forall_mem_cons.mpr ⟨(hword p List.mem_cons_self).1, fun w hw => by
          obtain ⟨q, hq, rfl⟩ := List.mem_map.mp hw
          exact (hword q (List.mem_cons_of_mem _ hq)).1⟩
      have hread : ((p :: rest).map fun q => q.1.toList).mapM piece? =
          some ((p :: rest).map Prod.snd) := by
        rw [List.mapM_map]
        exact mapM_eq_pure_map fun q hq => (hword q hq).2
      have hsplit := Text.map_trim_splitAt (by decide) (List.forall_mem_nil _) p.1.toList
        (rest.map fun q => q.1.toList) hwords
      have htrim := Text.trim_intercalate_ne_nil [' ', '|', ' '] (hword p List.mem_cons_self).1
        (rest.map fun q => q.1.toList)
      rw [List.map_cons] at hread ⊢
      rw [← hsplit, List.mapM_map, List.nil_append] at hread
      rw [hpieces] at hunion
      rw [if_neg (by simpa using htrim)]
      exact (congrArg (Option.map fun l => l.foldl union {}) hread).trans (congrArg some hunion)

end VisualScript.Flags
