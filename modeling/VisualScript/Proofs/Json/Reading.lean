import VisualScript.Json.Printer
import VisualScript.Json.Reader
import VisualScript.Proofs.Text.Numerals

namespace VisualScript.Json

variable {j : Json} {s ws : List Char} {fields : Fields}
open Text

theorem skipSpace_append {ws : List Char} (h : ∀ c ∈ ws, isSpace c = true) (s : List Char) :
    skipSpace (ws ++ s) = skipSpace s := List.dropWhile_append_of_pos h

theorem skipSpace_cons {c : Char} (h : isSpace c = false) (s : List Char) :
    skipSpace (c :: s) = c :: s := by
  rw [skipSpace, List.dropWhile_cons, h, if_neg Bool.false_ne_true]

theorem skipSpace_skipSpace (s : List Char) :
    skipSpace (skipSpace s) = skipSpace s := List.dropWhile_idempotent isSpace s

theorem value?_skipSpace (fuel : Nat) (s : List Char) : value? fuel (skipSpace s) = value? fuel s := by
  cases fuel with
  | zero => simp only [value?]
  | succ fuel => rw [value?, value?, skipSpace_skipSpace]

theorem items?_skipSpace (fuel : Nat) (s : List Char) : items? fuel (skipSpace s) = items? fuel s := by
  cases fuel with
  | zero => simp only [items?]
  | succ fuel => rw [items?, items?, value?_skipSpace]

theorem fields?_skipSpace (fuel : Nat) (s : List Char) : fields? fuel (skipSpace s) = fields? fuel s := by
  cases fuel with
  | zero => simp only [fields?]
  | succ fuel => rw [fields?, fields?, skipSpace_skipSpace]

theorem hex4?_control : ∀ n < 32, hex4? '0' '0' (hexDigit (n / 16)) (hexDigit (n % 16)) = some n := by
  decide

theorem isHigh_control : ∀ n < 32, isHigh n = false ∧ isLow n = false := by
  decide

theorem stringRest_escape (c : Char) (s : List Char) :
    stringRest (escape c ++ s) = (stringRest s).map fun r => (Content.push c r.1, r.2) := by
  have hback (n : Nat) (h : c.toNat = n) : c = Char.ofNat n := by rw [← h, Char.ofNat_toNat]
  rw [escape]
  split_ifs with hquote hslash hn hr ht hb hf hcontrol
  · simp [hquote, stringRest, simpleEscape?]
  · simp [hslash, stringRest, simpleEscape?]
  · simp [hn, stringRest, simpleEscape?]
  · simp [hr, stringRest, simpleEscape?]
  · simp [ht, stringRest, simpleEscape?]
  · simp [hback 8 hb, stringRest, simpleEscape?]
  · simp [hback 12 hf, stringRest, simpleEscape?]
  · have hunit : unit c.toNat none = Content.push c := by
      funext rest
      simp [unit, isHigh_control _ hcontrol]
    simp [stringRest, hex4?_control _ hcontrol, isHigh_control _ hcontrol, hunit]
  · simp [stringRest, hslash, hcontrol]

theorem stringRest_quote (cs rest : List Char) :
    stringRest (cs.flatMap escape ++ '"' :: rest) = some (some cs, rest) := by
  induction cs with
  | nil => simp [stringRest]
  | cons c cs ih => rw [List.flatMap_cons, List.append_assoc, stringRest_escape, ih]; rfl

def needsEscape (s : String) : Bool := s.toList.any fun c => escape c ≠ [c]

theorem escape_cases (c : Char) :
    (escape c = [c] ∧ c ≠ '"' ∧ c ≠ '\\') ∨ ∃ cs, escape c = '\\' :: cs ∧ escape c ≠ [c] := by
  rw [escape]
  split_ifs with hquote hslash hn hr ht hb hf hcontrol
  on_goal 9 => exact Or.inl ⟨rfl, hquote, hslash⟩
  all_goals exact Or.inr ⟨_, rfl, by simp⟩

theorem contains_takeWhile_quote (cs rest : List Char) :
    ((cs.flatMap escape ++ '"' :: rest).takeWhile fun c => c ≠ '"').contains '\\' =
      cs.any fun c => escape c ≠ [c] := by
  induction cs with
  | nil => simp
  | cons c cs ih =>
      rcases escape_cases c with ⟨hplain, hquote, hslash⟩ | ⟨tail, htail, hescape⟩
      · simp_all [Ne.symm]
      · rw [List.any_cons, decide_eq_true hescape, List.flatMap_cons, htail]
        simp

theorem name?_quote (s : String) (rest : List Char) :
    name? (s.toList.flatMap escape ++ '"' :: rest) = some (⟨needsEscape s, some s.toList⟩, rest) := by
  rw [name?, stringRest_quote, contains_takeWhile_quote]
  rfl

def Ends (rest : List Char) : Prop := ∀ c ∈ rest.head?, c.isDigit = false ∧ c ≠ '.' ∧ c ≠ 'e' ∧ c ≠ 'E'

theorem unsignedNumber?_toDigits (negative : Bool) (n : Nat) {rest : List Char} (h : Ends rest) :
    unsignedNumber? negative (Nat.toDigits 10 n ++ rest) =
      some (numberOf negative (Nat.toDigits 10 n) [] none, rest) := by
  have hdigits : ∀ c ∈ Nat.toDigits 10 n, c.isDigit = true :=
    fun c hc => Nat.isDigit_of_mem_toDigits (by decide) (by decide) hc
  have hrun : digitRun (Nat.toDigits 10 n ++ rest) = (Nat.toDigits 10 n, rest) := by
    rw [digitRun, List.takeWhile_append_of_pos hdigits, List.dropWhile_append_of_pos hdigits]
    cases rest with
    | nil => simp
    | cons c rest => simp [(h c rfl).1]
  have hwhole : wholePart? (Nat.toDigits 10 n ++ rest) = some (Nat.toDigits 10 n, rest) := by
    have hhead := head?_toDigits (by decide : 1 < 10) (by decide) (n := n)
    rw [wholePart?, hrun]
    split
    · next he => exact absurd (congrArg Prod.fst he) Nat.toDigits_ne_nil
    · next he =>
        have hdigits : Nat.toDigits 10 n = _ := congrArg Prod.fst he
        have hzero : n = 0 := hhead (by rw [hdigits]; rfl)
        rw [hzero, Nat.toDigits_zero] at hdigits
        cases hdigits
    · rfl
  have hfraction : fraction? rest = some ([], rest) := by
    cases rest with
    | nil => rfl
    | cons c rest => simp [fraction?, h c rfl]
  have hexponent : exponentPart? rest = some (none, rest) := by
    cases rest with
    | nil => rfl
    | cons c rest => simp [exponentPart?, h c rfl]
  simp [unsignedNumber?, hwhole, hfraction, hexponent]

theorem toList_toString_ofNat (n : Nat) : (toString (Int.ofNat n)).toList = Nat.toDigits 10 n := by
  rw [Int.toString_eq_repr, Int.repr, Nat.repr_eq_ofList_toDigits, String.toList_ofList]

theorem toList_toString_negSucc (n : Nat) :
    (toString (Int.negSucc n)).toList = '-' :: Nat.toDigits 10 (n + 1) := by
  rw [Int.toString_eq_repr, Int.repr, Nat.repr_eq_ofList_toDigits]
  simp

theorem toList_toString_int (n : Int) :
    ∃ c cs, (toString n).toList = c :: cs ∧ (c = '-' ∨ c.isDigit = true) := by
  cases n with
  | ofNat n =>
      obtain ⟨c, cs, hcs⟩ := List.exists_cons_of_ne_nil (Nat.toDigits_ne_nil (b := 10) (n := n))
      have hc : c.isDigit = true :=
        Nat.isDigit_of_mem_toDigits (by decide) (by decide) (hcs ▸ List.mem_cons_self)
      exact ⟨c, cs, (toList_toString_ofNat n).trans hcs, Or.inr hc⟩
  | negSucc n => exact ⟨'-', _, toList_toString_negSucc n, Or.inl rfl⟩

theorem number?_integer (n : Int) {rest : List Char} (h : Ends rest) :
    number? ((toString n).toList ++ rest) = some (.integer n, rest) := by
  cases n with
  | ofNat n =>
      have hplain : number? (Nat.toDigits 10 n ++ rest) =
          unsignedNumber? false (Nat.toDigits 10 n ++ rest) := by
        obtain ⟨c, cs, hcs⟩ := List.exists_cons_of_ne_nil (Nat.toDigits_ne_nil (b := 10) (n := n))
        have hc : c.isDigit = true :=
          Nat.isDigit_of_mem_toDigits (by decide) (by decide) (hcs ▸ List.mem_cons_self)
        have hsign : c ≠ '-' := fun he => by simp [he] at hc
        simp [hcs, number?, hsign]
      rw [toList_toString_ofNat, hplain, unsignedNumber?_toDigits false n h]
      simp [numberOf, digitsValue_toDigits]
  | negSucc n =>
      rw [toList_toString_negSucc, List.cons_append, number?, unsignedNumber?_toDigits true (n + 1) h]
      simp only [numberOf, digitsValue_toDigits]
      rfl

def Reads (s : List Char) (j : Json) : Prop :=
  ∀ fuel rest, s.length ≤ fuel → Ends rest → value? fuel (s ++ rest) = some (j, rest)

/-- The items of an array, up to its closing bracket. -/
def ReadsItems (s : List Char) (items : List Json) : Prop :=
  ∀ fuel ws rest, s.length < fuel → (∀ c ∈ ws, isSpace c = true) →
    items? fuel (s ++ (ws ++ ']' :: rest)) = some (items, rest)

/-- The fields of an object, up to its closing brace. -/
def ReadsFields (s : List Char) (fields : Fields) : Prop :=
  ∀ fuel ws rest, s.length < fuel → (∀ c ∈ ws, isSpace c = true) → ∃ found,
    fields? fuel (s ++ (ws ++ '}' :: rest)) = some (found, rest) ∧ recordOf found = .record fields

theorem ends_nil : Ends [] := fun _ hc => absurd hc (by simp)

theorem ends_cons {c : Char} (hc : c ∈ [']', '}', ',', '[', '{']) (rest : List Char) :
    Ends (c :: rest) := by
  have hplain : ∀ c ∈ [']', '}', ',', '[', '{'], c.isDigit = false ∧ c ≠ '.' ∧ c ≠ 'e' ∧ c ≠ 'E' := by simp
  intro d hd
  obtain rfl : c = d := by simpa using hd
  exact hplain c hc

theorem ends_of_space {ws rest : List Char} (h : ∀ c ∈ ws, isSpace c = true) (hrest : Ends rest) :
    Ends (ws ++ rest) := by
  cases ws with
  | nil => exact hrest
  | cons c ws =>
      intro d hd
      obtain rfl : c = d := by simpa using hd
      have hc := h c List.mem_cons_self
      simp only [isSpace, Bool.or_eq_true, decide_eq_true_eq] at hc
      rcases hc with ((rfl | rfl) | rfl) | rfl <;> decide

theorem Reads.null : Reads "null".toList .null := by
  intro fuel rest hfuel _
  cases fuel with
  | zero => simp at hfuel
  | succ fuel => simp [value?, skipSpace, isSpace, word?]

theorem Reads.bool (b : Bool) : Reads (if b then "true" else "false").toList (.bool b) := by
  intro fuel rest hfuel _
  cases fuel with
  | zero => cases b <;> simp at hfuel
  | succ fuel => cases b <;> simp [value?, skipSpace, isSpace, word?]

theorem Reads.integer (n : Int) : Reads (toString n).toList (.number (.integer n)) := by
  intro fuel rest hfuel hrest
  obtain ⟨c, cs, hcs, hc⟩ := toList_toString_int n
  have hnumber := number?_integer n hrest
  rw [hcs] at hfuel hnumber ⊢
  -- The first character is none of those that other values start with.
  have hother : ∀ d ∈ [' ', '\n', '\r', '\t', '"', '[', '{', 'n', 't', 'f'], c ≠ d := by
    rintro d hd rfl
    have hdigit : ∀ d ∈ [' ', '\n', '\r', '\t', '"', '[', '{', 'n', 't', 'f'], d ≠ '-' ∧
        d.isDigit = false := by simp
    obtain ⟨hsign, hdigit⟩ := hdigit c hd
    exact hc.elim hsign (Bool.eq_false_iff.mp hdigit)
  simp only [List.forall_mem_cons] at hother
  cases fuel with
  | zero => simp at hfuel
  | succ fuel => simp_all [value?, skipSpace, isSpace]

theorem Reads.string (s : String) : Reads (quote s) (.string s) := by
  intro fuel rest hfuel _
  cases fuel with
  | zero => simp [quote] at hfuel
  | succ fuel => simp [value?, skipSpace, isSpace, quote, stringRest_quote]

theorem Reads.indent (h : Reads s j) (hws : ∀ c ∈ ws, isSpace c = true) : Reads (ws ++ s) j := by
  intro fuel rest hfuel hrest
  rw [List.append_assoc, ← value?_skipSpace, skipSpace_append hws, value?_skipSpace]
  exact h fuel rest (by rw [List.length_append] at hfuel; omega) hrest

theorem ReadsItems.single {s : List Char} (h : Reads s j) : ReadsItems s [j] := by
  intro fuel ws rest hfuel hws
  cases fuel with
  | zero => simp at hfuel
  | succ fuel =>
      rw [items?, h fuel _ (by omega) (ends_of_space hws (ends_cons (by simp) rest))]
      simp only [skipSpace_append hws, skipSpace_cons (c := ']') rfl]

theorem ReadsItems.cons {s t : List Char} {items : List Json} (h : Reads s j) (ht : ReadsItems t items) :
    ReadsItems (s ++ ',' :: t) (j :: items) := by
  intro fuel ws rest hfuel hws
  cases fuel with
  | zero => simp at hfuel
  | succ fuel =>
      simp only [List.length_append, List.length_cons] at hfuel
      rw [List.append_assoc, items?, List.cons_append, h fuel _ (by omega) (ends_cons (by simp) _)]
      simp only [skipSpace_cons (c := ',') rfl, ht fuel ws rest (by omega) hws, Option.map_some]

theorem items?_bracket (fuel : Nat) (s : List Char) : items? fuel (']' :: s) = none := by
  have hvalue (fuel : Nat) : value? fuel (']' :: s) = none := by
    cases fuel with
    | zero => rw [value?]
    | succ fuel => simp [value?, skipSpace, isSpace, number?, unsignedNumber?, wholePart?, digitRun]
  cases fuel with
  | zero => rw [items?]
  | succ fuel => rw [items?, hvalue]

theorem Reads.array_nil : Reads ['[', ']'] (.array []) := by
  intro fuel rest hfuel _
  cases fuel with
  | zero => simp at hfuel
  | succ fuel => simp [value?, skipSpace, isSpace]

theorem Reads.array {items : List Json} (h : ReadsItems s items) (hws : ∀ c ∈ ws, isSpace c = true) :
    Reads ('[' :: (s ++ (ws ++ [']']))) (.array items) := by
  intro fuel rest hfuel _
  cases fuel with
  | zero => simp at hfuel
  | succ fuel =>
      simp only [List.length_append, List.length_cons] at hfuel
      have hitems := h fuel ws rest (by omega) hws
      have htext : '[' :: (s ++ (ws ++ [']'])) ++ rest = '[' :: (s ++ (ws ++ ']' :: rest)) := by simp
      rw [← items?_skipSpace] at hitems
      simp only [htext, value?, skipSpace_cons (c := '[') rfl]
      split
      · next he =>
          -- Items do not start with a closing bracket.
          rw [he, items?_bracket] at hitems
          cases hitems
      · rw [hitems, Option.map_some]

theorem recordOf_cons (name : String) (j : Json) (found : List (NameLiteral × Json))
    (h : recordOf found = .record fields) :
    recordOf ((⟨needsEscape name, some name.toList⟩, j) :: found) =
      .record ((⟨name, needsEscape name⟩, j) :: fields) := by
  rw [recordOf] at h ⊢
  rw [List.mapM_cons]
  split at h
  · next he =>
      cases h
      simp [he]
  · cases h

theorem ReadsFields.indent (h : ReadsFields s fields) (hws : ∀ c ∈ ws, isSpace c = true) :
    ReadsFields (ws ++ s) fields := by
  intro fuel gap rest hfuel hgap
  rw [List.append_assoc, ← fields?_skipSpace, skipSpace_append hws, fields?_skipSpace]
  exact h fuel gap rest (by rw [List.length_append] at hfuel; omega) hgap

theorem ReadsFields.single (name : String) {s : List Char} (h : Reads s j) :
    ReadsFields (quote name ++ ':' :: s) [(⟨name, needsEscape name⟩, j)] := by
  intro fuel ws rest hfuel hws
  refine ⟨_, ?_, recordOf_cons name j [] rfl⟩
  cases fuel with
  | zero => simp at hfuel
  | succ fuel =>
      simp only [List.length_append, List.length_cons] at hfuel
      have hvalue := h fuel _ (by omega) (ends_of_space hws (ends_cons (c := '}') (by simp) rest))
      simp only [quote, List.cons_append, List.append_assoc, List.nil_append, fields?, name?_quote,
        skipSpace_cons (c := '"') rfl,
        skipSpace_cons (c := ':') rfl, hvalue, skipSpace_append hws, skipSpace_cons (c := '}') rfl]

theorem ReadsFields.cons (name : String) {s t : List Char} (h : Reads s j) (ht : ReadsFields t fields) :
    ReadsFields (quote name ++ ':' :: (s ++ ',' :: t)) ((⟨name, needsEscape name⟩, j) :: fields) := by
  intro fuel ws rest hfuel hws
  cases fuel with
  | zero => simp at hfuel
  | succ fuel =>
      simp only [List.length_append, List.length_cons] at hfuel
      obtain ⟨found, hfound, hrecord⟩ := ht fuel ws rest (by omega) hws
      have hvalue := h fuel _ (by omega) (ends_cons (c := ',') (by simp) (t ++ (ws ++ '}' :: rest)))
      refine ⟨_, ?_, recordOf_cons name j found hrecord⟩
      simp only [quote, List.cons_append, List.append_assoc, List.nil_append, fields?, name?_quote,
        skipSpace_cons (c := '"') rfl,
        skipSpace_cons (c := ':') rfl, hvalue, skipSpace_cons (c := ',') rfl, hfound, Option.map_some]

theorem Reads.record_nil : Reads ['{', '}'] (.record []) := by
  intro fuel rest hfuel _
  cases fuel with
  | zero => simp at hfuel
  | succ fuel => simp [value?, skipSpace, isSpace]

theorem Reads.record (h : ReadsFields s fields) (hws : ∀ c ∈ ws, isSpace c = true) :
    Reads ('{' :: (s ++ (ws ++ ['}']))) (.record fields) := by
  intro fuel rest hfuel _
  cases fuel with
  | zero => simp at hfuel
  | succ fuel =>
      simp only [List.length_append, List.length_cons] at hfuel
      obtain ⟨found, hfound, hrecord⟩ := h fuel ws rest (by omega) hws
      have htext : '{' :: (s ++ (ws ++ ['}'])) ++ rest = '{' :: (s ++ (ws ++ '}' :: rest)) := by simp
      rw [← fields?_skipSpace] at hfound
      simp only [htext, value?, skipSpace_cons (c := '{') rfl]
      split
      · next he =>
          -- Fields do not start with a closing brace.
          rw [he] at hfound
          cases fuel <;> simp [fields?, skipSpace_cons (c := '}') rfl] at hfound
      · rw [hfound, Option.map_some, hrecord]

/-- Values without reals, which are the ones that are read as they were written. -/
inductive Plain : Json → Prop where
  | null : Plain .null
  | bool (b : Bool) : Plain (.bool b)
  | integer (n : Int) : Plain (.number (.integer n))
  | string (s : String) : Plain (.string s)
  | array {items : List Json} (h : ∀ j ∈ items, Plain j) : Plain (.array items)
  | record {fields : Fields} (h : ∀ f ∈ fields, Plain f.2) : Plain (.record fields)

mutual

/-- A value as it is read from its text: the names that need an escape are marked. -/
def asRead : Json → Json
  | .array items => .array (asReadItems items)
  | .record fields => .record (asReadFields fields)
  | .null => .null
  | .bool b => .bool b
  | .number n => .number n
  | .string s => .string s
  | .broken => .broken

def asReadItems : List Json → List Json
  | [] => []
  | j :: rest => asRead j :: asReadItems rest

def asReadFields : Fields → Fields
  | [] => []
  | (name, j) :: rest => (⟨name.text, needsEscape name.text⟩, asRead j) :: asReadFields rest

end

theorem asReadItems_eq_map (items : List Json) : asReadItems items = items.map asRead := by
  induction items with
  | nil => rfl
  | cons j rest ih => rw [asReadItems, ih, List.map_cons]

theorem asReadFields_eq_map (fields : Fields) :
    asReadFields fields = fields.map fun f => (⟨f.1.text, needsEscape f.1.text⟩, f.2.asRead) := by
  induction fields with
  | nil => rfl
  | cons f rest ih => rw [asReadFields, ih, List.map_cons]

section

variable {text : Json → List Char}

theorem readsItems_of (join : List Json → List Char) (hone : ∀ j, join [j] = text j)
    (hmore : ∀ j k rest, join (j :: k :: rest) = text j ++ ',' :: join (k :: rest)) (j : Json)
    (rest : List Json) (h : ∀ k ∈ j :: rest, Reads (text k) k.asRead) :
    ReadsItems (join (j :: rest)) (asReadItems (j :: rest)) := by
  induction rest generalizing j with
  | nil => exact hone j ▸ ReadsItems.single (h j List.mem_cons_self)
  | cons k rest ih =>
      have hrest := ih k fun i hi => h i (List.mem_cons_of_mem _ hi)
      exact hmore j k rest ▸ ReadsItems.cons (h j List.mem_cons_self) hrest

theorem readsFields_of (join : Fields → List Char) {gap : List Char}
    (hgap : ∀ c ∈ gap, isSpace c = true)
    (hone : ∀ name j, join [(name, j)] = gap ++ (quote name.text ++ ':' :: text j))
    (hmore : ∀ name j f rest, join ((name, j) :: f :: rest) =
      gap ++ (quote name.text ++ ':' :: (text j ++ ',' :: join (f :: rest))))
    (f : JsonName × Json) (rest : Fields) (h : ∀ p ∈ f :: rest, Reads (text p.2) p.2.asRead) :
    ReadsFields (join (f :: rest)) (asReadFields (f :: rest)) := by
  induction rest generalizing f with
  | nil =>
      rw [hone]
      exact (ReadsFields.single f.1.text (h f List.mem_cons_self)).indent hgap
  | cons g rest ih =>
      have hrest := ih g fun p hp => h p (List.mem_cons_of_mem _ hp)
      rw [hmore]
      exact (ReadsFields.cons f.1.text (h f List.mem_cons_self) hrest).indent hgap

end

theorem Plain.reads_compact (h : Plain j) : Reads j.compactChars j.asRead := by
  induction h with
  | null => exact Reads.null
  | bool b => exact Reads.bool b
  | integer n => exact Reads.integer n
  | string s => exact Reads.string s
  | @array items h ih =>
      cases items with
      | nil => exact Reads.array_nil
      | cons j rest =>
          exact Reads.array (readsItems_of compactItems (fun _ => rfl) (fun _ _ _ => rfl) j rest ih)
            (List.forall_mem_nil _)
  | @record fields h ih =>
      cases fields with
      | nil => exact Reads.record_nil
      | cons f rest =>
          have hfields := readsFields_of compactFields (List.forall_mem_nil _) (fun _ _ => rfl)
            (fun _ _ _ _ => rfl) f rest ih
          exact Reads.record hfields (List.forall_mem_nil _)

theorem isSpace_newline (depth : Nat) : ∀ c ∈ newline depth, isSpace c = true := by
  intro c hc
  rcases List.mem_cons.mp hc with rfl | hc
  · rfl
  · rw [List.eq_of_mem_replicate hc]
    rfl

theorem Plain.reads_pretty (h : Plain j) (depth : Nat) : Reads (j.prettyChars depth) j.asRead := by
  induction h generalizing depth with
  | null => exact Reads.null
  | bool b => exact Reads.bool b
  | integer n => exact Reads.integer n
  | string s => exact Reads.string s
  | @array items h ih =>
      cases items with
      | nil => exact Reads.array_nil
      | cons j rest =>
          have hitems := readsItems_of (prettyItems (depth + 1)) (fun _ => rfl) (fun _ _ _ => rfl) j
            rest fun k hk =>
            (ih k hk (depth + 1)).indent (isSpace_newline (depth + 1))
          rw [prettyChars, List.append_assoc]
          exact Reads.array hitems (isSpace_newline depth)
  | @record fields h ih =>
      cases fields with
      | nil => exact Reads.record_nil
      | cons f rest =>
          have hfields := readsFields_of (prettyFields (depth + 1)) (isSpace_newline (depth + 1))
            (fun _ _ => List.append_assoc ..) (fun _ _ _ _ => List.append_assoc ..) f rest fun p hp =>
              (ih p hp (depth + 1)).indent (List.forall_mem_singleton.mpr rfl : ∀ c ∈ [' '],
                isSpace c = true)
          rw [prettyChars, List.append_assoc]
          exact Reads.record hfields (isSpace_newline depth)

theorem Plain.read?_pretty (h : Plain j) : read? j.pretty = some j.asRead := by
  have hread := h.reads_pretty 0 (j.pretty.length + 1) []
    (by rw [pretty, String.length_ofList]; omega) ends_nil
  rw [List.append_nil] at hread
  rw [read?, pretty, String.toList_ofList, ← pretty, hread]
  rfl

end VisualScript.Json
