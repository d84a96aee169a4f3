import VisualScript.Proofs.Class.Defaults
import VisualScript.Proofs.Text.Numerals

namespace VisualScript

def BaseType.isInteger : BaseType → Bool
  | .byte | .int | .int64 => true
  | _ => false

namespace DefaultValue

open Text

/-- Elements in parentheses, with commas between them and blanks around each. Where there is none,
only blanks are inside. -/
inductive Bracketed (elem : List Char → DefaultValue → Prop) : List DefaultValue → List Char → Prop
  | empty {inner : List Char} (h : Blank inner) : Bracketed elem [] ('(' :: (inner ++ [')']))
  | items {pieces : List (List Char)} {vs : List DefaultValue} (hne : vs ≠ [])
      (h : List.Forall₂ (fun piece v => Padded (fun item => elem item v) piece) pieces vs) :
      Bracketed elem vs ('(' :: ([','].intercalate pieces ++ [')']))

variable {s : Schema} {base : BaseType} {v : DefaultValue} {vs : List DefaultValue} {item : List Char}

theorem Bracketed.exists_body {elem : List Char → DefaultValue → Prop} {t : List Char}
    (h : Bracketed elem vs t) :
    ∃ body, t = '(' :: (body ++ [')']) := by
  cases h <;> exact ⟨_, rfl⟩

theorem tight_of_body (body : List Char) : Tight ('(' :: (body ++ [')'])) where
  ne_nil := List.cons_ne_nil _ _
  head c hc := by cases hc; decide
  last c hc := by
    rw [← List.cons_append, List.getLast?_concat] at hc
    cases hc
    decide

theorem inside?_eq_some_iff {t inner : List Char} :
    inside? t = some inner ↔ ∃ body, t = '(' :: (body ++ [')']) ∧ trim body = inner := by
  constructor
  · intro h
    unfold inside? at h
    split at h
    · split at h
      · next rest hlast =>
        obtain ⟨body, rfl⟩ := List.getLast?_eq_some_iff.mp hlast
        exact ⟨body, rfl, by simpa using h⟩
      · cases h
    · cases h
  · rintro ⟨body, rfl, rfl⟩
    simp [inside?]

/-- What stands in parentheses is read piece by piece. -/
theorem ofText?_pieces {text : String} : ofText? s ⟨base, .array⟩ text = some v ↔
    ∃ body vs, trim text.toList = '(' :: (body ++ [')']) ∧ v = .array vs ∧
      (Blank body ∧ vs = [] ∨ ¬ Blank body ∧
        List.Forall₂ (fun piece v => single? s base (trim piece) = some v) (splitAt ',' body) vs) := by
  have hmapM (body : List Char) : (splitAt ',' (trim body)).mapM (fun item => single? s base (trim item)) =
      (splitAt ',' body).mapM fun item => single? s base (trim item) := by
    have hmap := congrArg (List.mapM (single? s base)) (map_trim_splitAt_trim (c := ',') (by decide) body)
    rwa [List.mapM_map, List.mapM_map] at hmap
  simp only [ofText?]
  constructor
  · intro h
    split at h
    · cases h
    · next hinside =>
      obtain ⟨body, ht, hbody⟩ := inside?_eq_some_iff.mp hinside
      exact ⟨body, [], ht, (Option.some.inj h).symm, Or.inl ⟨trim_eq_nil_iff.mp hbody, rfl⟩⟩
    · next inner hne hinside =>
      obtain ⟨body, ht, rfl⟩ := inside?_eq_some_iff.mp hinside
      rw [hmapM] at h
      obtain ⟨vs, hvs, rfl⟩ := Option.map_eq_some_iff.mp h
      exact ⟨body, vs, ht, rfl, Or.inr ⟨mt trim_eq_nil_iff.mpr hne, mapM_eq_some_iff.mp hvs⟩⟩
  · rintro ⟨body, vs, ht, rfl, hbody⟩
    have hinside := inside?_eq_some_iff.mpr ⟨body, ht, rfl⟩
    rcases hbody with ⟨hblank, rfl⟩ | ⟨hsolid, hvs⟩
    · rw [hinside, trim_eq_nil_iff.mpr hblank]
    · have hne : trim body ≠ [] := mt trim_eq_nil_iff.mp hsolid
      rw [hinside]
      split
      · next he => cases he
      · next he => exact absurd (Option.some.inj he) hne
      · next he =>
        cases he
        rw [hmapM, mapM_eq_some_iff.mpr hvs, Option.map_some]

/-- If the elements can be told apart, an array is read from elements between commas and
parentheses, and from nothing else. -/
theorem ofText?_bracketed (hsolid : ∀ item v, single? s base item = some v → Solid ',' item)
    {text : String} :
    ofText? s ⟨base, .array⟩ text = some v ↔ ∃ vs, v = .array vs ∧
      Padded (Bracketed (fun item v => single? s base item = some v) vs) text.toList := by
  have hpadded (piece : List Char) (v : DefaultValue) :
      Padded (fun item => single? s base item = some v) piece ↔ single? s base (trim piece) = some v :=
    padded_iff fun item h => (hsolid item v h).tight
  have htight (vs : List DefaultValue) :
      Padded (Bracketed (fun item v => single? s base item = some v) vs) text.toList ↔
      Bracketed (fun item v => single? s base item = some v) vs (trim text.toList) :=
    padded_iff fun t ht => by
      obtain ⟨body, rfl⟩ := ht.exists_body
      exact tight_of_body body
  simp only [ofText?_pieces, htight]
  constructor
  · rintro ⟨body, vs, ht, rfl, hbody⟩
    refine ⟨vs, rfl, ?_⟩
    rw [ht]
    rcases hbody with ⟨hblank, rfl⟩ | ⟨-, hvs⟩
    · exact .empty hblank
    · have hbody : [','].intercalate (splitAt ',' body) = body := by
        rw [splitAt_eq_splitOn]
        exact List.intercalate_splitOn ','
      rw [← hbody]
      refine .items ?_ (hvs.imp fun piece v h => (hpadded piece v).mpr h)
      rintro rfl
      have hnil := List.forall₂_nil_right_iff.mp hvs
      rw [splitAt_eq_splitOn] at hnil
      exact List.splitOn_ne_nil ',' body hnil
  · rintro ⟨vs, rfl, hvs⟩
    generalize htext : trim text.toList = t at hvs
    cases hvs with
    | empty hblank => exact ⟨_, [], rfl, rfl, Or.inl ⟨hblank, rfl⟩⟩
    | @items pieces _ hne hvs =>
        have hpieces : ∀ piece ∈ pieces, ',' ∉ piece ∧ ¬ Blank piece :=
          (List.forall₂_and_left _ _ |>.mp
            (hvs.imp fun piece v h => ⟨h.solid (fun t => hsolid t v) (by decide), h⟩)).1
        obtain ⟨piece, rest, rfl⟩ : ∃ piece rest, pieces = piece :: rest :=
          List.exists_cons_of_ne_nil fun hnil => hne (List.forall₂_nil_left_iff.mp (hnil ▸ hvs))
        refine ⟨_, vs, rfl, rfl,
          Or.inr ⟨not_blank_intercalate (hpieces piece List.mem_cons_self).2 rest, ?_⟩⟩
        rw [splitAt_eq_splitOn,
          List.splitOn_intercalate ',' (fun p hp => (hpieces p hp).1) (List.cons_ne_nil _ _)]
        exact hvs.imp fun p v h => (hpadded p v).mp h

/-- An element of an array of integers: a numeral for a value of the type. No byte has a minus sign. -/
structure Spells (base : BaseType) (item : List Char) (v : DefaultValue) : Prop where
  numeral : ∃ n, v = .int n ∧ Numeral item n
  suits : Suits (fun _ => False) base v
  unsigned : base = .byte → item.head? ≠ some '-'

theorem within_eq_some_iff {lo hi n m : Int} : within lo hi n = some m ↔ n = m ∧ lo ≤ m ∧ m ≤ hi := by
  rw [within]
  split
  · next h => exact ⟨fun he => ⟨Option.some.inj he, Option.some.inj he ▸ h⟩, fun he => congrArg some he.1⟩
  · next h => exact ⟨fun he => absurd he.symm (Option.some_ne_none m), fun he => absurd (he.1 ▸ he.2) h⟩

theorem spells_signed {lo hi : Int} (hbase : base ≠ .byte)
    (hsuits : ∀ n, Suits (fun _ => False) base (.int n) ↔ lo ≤ n ∧ n ≤ hi) :
    ((signed? item).bind (within lo hi)).map .int = some v ↔ Spells base item v := by
  simp only [Option.map_eq_some_iff, Option.bind_eq_some_iff, signed?_eq_some_iff, within_eq_some_iff]
  constructor
  · rintro ⟨n, ⟨_, hn, rfl, hrange⟩, rfl⟩
    exact ⟨⟨_, rfl, hn⟩, (hsuits _).mpr hrange, fun hb => absurd hb hbase⟩
  · rintro ⟨⟨n, rfl, hn⟩, hn', -⟩
    exact ⟨n, ⟨n, hn, rfl, (hsuits n).mp hn'⟩, rfl⟩

theorem spells_byte : (byte? item).map .int = some v ↔ Spells .byte item v := by
  simp only [byte?, Option.map_eq_some_iff, Option.bind_eq_some_iff, unsigned?_eq_some_iff,
    within_eq_some_iff]
  constructor
  · rintro ⟨n, ⟨m, ⟨hm, hminus⟩, rfl, hrange⟩, rfl⟩
    exact ⟨⟨_, rfl, hm⟩, .byte hrange, fun _ => hminus⟩
  · rintro ⟨⟨n, rfl, hn⟩, hsuits, hminus⟩
    cases hsuits with
    | byte hrange =>
        obtain ⟨m, rfl⟩ := Int.eq_ofNat_of_zero_le hrange.1
        exact ⟨m, ⟨m, ⟨hn, hminus rfl⟩, rfl, hrange⟩, rfl⟩

theorem single?_integer_iff (h : base.isInteger = true) :
    single? s base item = some v ↔ Spells base item v := by
  cases base with
  | byte => exact spells_byte
  | int => exact spells_signed (by decide) fun n => ⟨fun hn => by cases hn; assumption, .int⟩
  | int64 => exact spells_signed (by decide) fun n => ⟨fun hn => by cases hn; assumption, .int64⟩
  | _ => cases h

theorem solid_of_bool? (h : bool? item = some v) : Solid ',' item := by
  have hsolid {word : List Char} (hword : word.all Char.isAlpha = true) (hne : word ≠ [])
      (hw : item.map Char.toLower = word) :
      Solid ',' item := by
    refine ⟨fun hnil => hne (by rw [← hw, hnil]; rfl), fun c hc => plain_of_isAlphanum ?_⟩
    have hlower := List.all_eq_true.mp hword c.toLower (hw ▸ List.mem_map_of_mem hc)
    rw [Char.isAlphanum, isAlpha_of_toLower hlower, Bool.true_or]
  simp only [bool?] at h
  split at h
  · next hw => exact hsolid rfl (by decide) hw
  · split at h
    · next hw => exact hsolid rfl (by decide) hw
    · cases h

theorem solid_of_single? (h : base = .bool ∨ base.isInteger = true) (hv : single? s base item = some v) :
    Solid ',' item := by
  rcases h with rfl | h
  · exact solid_of_bool? hv
  · obtain ⟨n, -, hn⟩ := ((single?_integer_iff h).mp hv).numeral
    exact hn.solid

theorem single?_text {refers : String → Prop} (h : base = .bool ∨ base.isInteger = true)
    (hv : Suits refers base v) :
    single? s base v.text.toList = some v := by
  cases hv with
  | bool b => cases b <;> rfl
  | byte hn =>
      rw [single?_integer_iff rfl]
      exact ⟨⟨_, rfl, (numeral_toString _).1⟩, .byte hn, fun _ => (numeral_toString _).2 hn.1⟩
  | int hn =>
      rw [single?_integer_iff rfl]
      exact ⟨⟨_, rfl, (numeral_toString _).1⟩, .int hn, fun hb => by cases hb⟩
  | int64 hn =>
      rw [single?_integer_iff rfl]
      exact ⟨⟨_, rfl, (numeral_toString _).1⟩, .int64 hn, fun hb => by cases hb⟩
  | _ => rcases h with h | h <;> cases h

theorem texts_eq_map (vs : List DefaultValue) : texts vs = vs.map text := by
  induction vs with
  | nil => rfl
  | cons v vs ih => rw [texts, ih, List.map_cons]

theorem intercalate_blank (p : List Char) (rest : List (List Char)) :
    [',', ' '].intercalate (p :: rest) = [','].intercalate (p :: rest.map (' ' :: ·)) := by
  induction rest generalizing p with
  | nil => rfl
  | cons q rest ih =>
      have hspace (r : List (List Char)) : [','].intercalate ((' ' :: q) :: r) =
          ' ' :: [','].intercalate (q :: r) := by
        cases r with
        | nil => rfl
        | cons => rw [List.intercalate_cons_cons, List.intercalate_cons_cons]; rfl
      rw [List.intercalate_cons_cons, ih, List.map_cons, List.intercalate_cons_cons, hspace]
      simp

theorem bracketed_text {elem : List Char → DefaultValue → Prop} (h : ∀ v ∈ vs, elem v.text.toList v) :
    Bracketed elem vs (array vs).text.toList := by
  have hpadded {v : DefaultValue} (hv : elem v.text.toList v) {before : List Char} (hb : Blank before) :
      Padded (fun item => elem item v) (before ++ v.text.toList) :=
    ⟨before, _, [], by rw [List.append_nil], hb, List.forall_mem_nil _, hv⟩
  have htext : (array vs).text.toList = '(' ::
      ([',', ' '].intercalate (vs.map fun v => v.text.toList) ++ [')']) := by
    rw [text, texts_eq_map, String.toList_append, String.toList_append, String.toList_intercalate,
      List.map_map]
    rfl
  rw [htext]
  cases vs with
  | nil => exact .empty (List.forall_mem_nil _)
  | cons v vs =>
      obtain ⟨hv, hvs⟩ := List.forall_mem_cons.mp h
      rw [List.map_cons, intercalate_blank]
      refine .items (List.cons_ne_nil _ _) (.cons (hpadded hv (List.forall_mem_nil _)) ?_)
      rw [List.map_map, List.forall₂_map_left_iff, List.forall₂_same]
      exact fun w hw => hpadded (hvs w hw) blank_space

/-- An array of truth values or of integers is read again from what a listing prints for it,
whatever blanks are around it. A text is read as an array of integers just if it has numerals in the
range of the type between commas and parentheses, with any blanks around them. -/
theorem array_texts_read_back (s : Schema) :
    (∀ {base : BaseType} {vs : List DefaultValue} {before after : String}, base = .bool ∨
      base.isInteger = true →
      Fits s.HasComponent ⟨base, .array⟩ (.array vs) → Blank before.toList → Blank after.toList →
      ofText? s ⟨base, .array⟩ (before ++ (array vs).text ++ after) = some (.array vs)) ∧
    ∀ {base : BaseType} {text : String} {v : DefaultValue}, base.isInteger = true →
      (ofText? s ⟨base, .array⟩ text = some v ↔ ∃ vs, v = .array vs ∧
        Padded (Bracketed (Spells base) vs) text.toList) := by
  refine ⟨fun {base vs before after} hbase hfits hbefore hafter => ?_, fun {base text v} hbase => ?_⟩
  · rw [ofText?_bracketed fun item v => solid_of_single? hbase]
    refine ⟨vs, rfl, before.toList, _, after.toList, ?_, hbefore, hafter, bracketed_text fun v hv => ?_⟩
    · rw [String.toList_append, String.toList_append, List.append_assoc]
    · cases hfits with
      | array h => exact single?_text hbase (h v hv)
  · rw [ofText?_bracketed fun item v => solid_of_single? (Or.inr hbase)]
    simp only [single?_integer_iff hbase]

/-- The ends of a range are read back, and so are signs, leading zeros and blanks of all kinds. -/
theorem bounds_read_back :
    ofText? {} ⟨.int64, .array⟩
      ("\n\u3000" ++ (array [.int (-9223372036854775808), .int 9223372036854775807]).text ++ "\t") =
      some (.array [.int (-9223372036854775808), .int 9223372036854775807]) ∧
    ofText? {} ⟨.byte, .array⟩ " ( +007\t,255 )" = some (.array [.int 7, .int 255]) ∧
    ∃ vs, array [.int 7, .int 255] = .array vs ∧
      Padded (Bracketed (Spells .byte) vs) " ( +007\t,255 )".toList := by
  have hbyte : ofText? {} ⟨.byte, .array⟩ " ( +007\t,255 )" = some (.array [.int 7, .int 255]) := by rfl
  refine ⟨(array_texts_read_back {}).1 (Or.inr rfl) (.array ?_) ?_ ?_, hbyte,
    ((array_texts_read_back {}).2 rfl).mp hbyte⟩
  · exact List.forall_mem_cons.mpr ⟨.int64 (by decide), List.forall_mem_singleton.mpr (.int64 (by decide))⟩
  · exact List.all_eq_true.mp (by decide)
  · exact List.all_eq_true.mp (by decide)

end DefaultValue

end VisualScript
