import VisualScript.Proofs.Json.Reading

namespace VisualScript.Json

variable {values : List Json} {j : Json}

/-- What a character may mean to the structure of a text. -/
inductive Sign where
  | quote
  | backslash
  | opening
  | closing
  | plain

def sign (c : Char) : Sign :=
  if c = '"' then .quote
  else if c = '\\' then .backslash
  else if c = '[' ∨ c = '{' then .opening
  else if c = ']' ∨ c = '}' then .closing
  else .plain

inductive Mode where
  | outside
  | quoted
  | escaped
deriving DecidableEq

/-- A place in a text: whether it is in a string, and how many brackets are open. -/
structure Place where
  mode : Mode
  depth : Nat
deriving DecidableEq

namespace Place

variable {p q : Place} {σ : Sign}

/-- There is no way on from what never is in a text: a backslash outside of strings, a backslash before a
bracket that opens, a bracket that closes nothing. -/
def move : Place → Sign → Option Place
  | ⟨.outside, k⟩, .quote => some ⟨.quoted, k⟩
  | ⟨.outside, _⟩, .backslash => none
  | ⟨.outside, k⟩, .opening => some ⟨.outside, k + 1⟩
  | ⟨.outside, 0⟩, .closing => none
  | ⟨.outside, k + 1⟩, .closing => some ⟨.outside, k⟩
  | ⟨.outside, k⟩, .plain => some ⟨.outside, k⟩
  | ⟨.quoted, k⟩, .quote => some ⟨.outside, k⟩
  | ⟨.quoted, k⟩, .backslash => some ⟨.escaped, k⟩
  | ⟨.quoted, k⟩, _ => some ⟨.quoted, k⟩
  | ⟨.escaped, _⟩, .opening => none
  | ⟨.escaped, k⟩, _ => some ⟨.quoted, k⟩

def walk (p : Place) (s : List Char) : Option Place := s.foldlM (fun p c => p.move (sign c)) p

theorem walk_cons (p : Place) (c : Char) (s : List Char) :
    p.walk (c :: s) = (p.move (sign c)).bind fun q => q.walk s :=
  List.foldlM_cons

theorem walk_append (p : Place) (s t : List Char) :
    p.walk (s ++ t) = (p.walk s).bind fun q => q.walk t := List.foldlM_append

def deeper (p : Place) : Place := { p with depth := p.depth + 1 }

theorem move_deeper (h : p.move σ = some q) : p.deeper.move σ = some q.deeper := by
  obtain ⟨mode, depth⟩ := p
  cases mode <;> cases σ <;> cases depth <;> cases h <;> rfl

theorem walk_deeper {s : List Char} (h : p.walk s = some q) : p.deeper.walk s = some q.deeper := by
  induction s generalizing p with
  | nil =>
      cases h
      rfl
  | cons c s ih =>
      rw [walk_cons, Option.bind_eq_some_iff] at h
      obtain ⟨r, hr, h⟩ := h
      rw [walk_cons, move_deeper hr]
      exact ih h

def Across (p q : Place) : Prop :=
  (p.mode = .outside ∧ q.mode = .quoted) ∨ (p.mode = .quoted ∧ q.mode = .outside)

theorem Across.symm (h : p.Across q) : q.Across p := Or.symm (h.imp And.symm And.symm)

theorem across_of_move {k m : Nat} (hp : (⟨.outside, k⟩ : Place).move σ = some p)
    (hq : (⟨.quoted, m⟩ : Place).move σ = some q) : p.Across q := by
  cases σ with
  | quote =>
      cases hp
      cases hq
      exact Or.inr ⟨rfl, rfl⟩
  | backslash => cases hp
  | closing =>
      cases k with
      | zero => cases hp
      | succ k =>
          cases hp
          cases hq
          exact Or.inl ⟨rfl, rfl⟩
  | opening | plain =>
      cases hp
      cases hq
      exact Or.inl ⟨rfl, rfl⟩

theorem Across.move {p q p' q' : Place} (h : p.Across q) (hp : p.move σ = some p')
    (hq : q.move σ = some q') :
    p'.Across q' := by
  obtain ⟨mode, depth⟩ := p
  obtain ⟨mode', depth'⟩ := q
  rcases h with ⟨rfl, rfl⟩ | ⟨rfl, rfl⟩
  · exact across_of_move hp hq
  · exact (across_of_move hq hp).symm

theorem Across.walk {p q p' q' : Place} (h : p.Across q) {s : List Char} (hp : p.walk s = some p')
    (hq : q.walk s = some q') :
    p'.Across q' := by
  induction s generalizing p q with
  | nil =>
      cases hp
      cases hq
      exact h
  | cons c s ih =>
      rw [walk_cons, Option.bind_eq_some_iff] at hp hq
      obtain ⟨p₁, hp₁, hp⟩ := hp
      obtain ⟨q₁, hq₁, hq⟩ := hq
      exact ih (h.move hp₁ hq₁) hp hq

end Place

def Level (s : List Char) : Prop := (⟨.outside, 0⟩ : Place).walk s = some ⟨.outside, 0⟩

namespace Level

variable {s t : List Char}

theorem walk (h : Level s) (k : Nat) : (⟨.outside, k⟩ : Place).walk s = some ⟨.outside, k⟩ := by
  induction k with
  | zero => exact h
  | succ k ih => exact Place.walk_deeper ih

theorem nil : Level [] := rfl

theorem append (hs : Level s) (ht : Level t) : Level (s ++ t) := by
  rw [Level, Place.walk_append, hs]
  exact ht

theorem cons {c : Char} (hc : sign c = .plain) (ht : Level t) : Level (c :: t) := by
  rw [Level, Place.walk_cons, hc]
  exact ht

theorem of_plain (h : ∀ c ∈ s, sign c = .plain) : Level s := by
  induction s with
  | nil => exact nil
  | cons c s ih => exact cons (h c List.mem_cons_self) (ih fun d hd => h d (List.mem_cons_of_mem c hd))

theorem bracket {o c : Char} (ho : sign o = .opening) (hc : sign c = .closing) (hs : Level s) :
    Level (o :: (s ++ [c])) := by
  have hopen : (⟨.outside, 0⟩ : Place).move .opening = some ⟨.outside, 1⟩ := rfl
  rw [Level, Place.walk_cons, ho, hopen, Option.bind_some, Place.walk_append, hs.walk 1,
    Option.bind_some, Place.walk_cons, hc]
  rfl

theorem walk_escape (c : Char) : (⟨.quoted, 0⟩ : Place).walk (escape c) = some ⟨.quoted, 0⟩ := by
  have hhex : ∀ n < 32, (⟨.quoted, 0⟩ : Place).walk ['\\', 'u', '0', '0', hexDigit (n / 16),
      hexDigit (n % 16)] =
      some ⟨.quoted, 0⟩ := by decide
  rw [escape]
  split_ifs with hquote hslash hn hr ht hb hf hcontrol
  · rfl
  · rfl
  · rfl
  · rfl
  · rfl
  · rfl
  · rfl
  · exact hhex _ hcontrol
  · rw [Place.walk_cons, sign, if_neg hquote, if_neg hslash]
    split_ifs <;> rfl

theorem quote (s : String) : Level (quote s) := by
  have hinside (cs : List Char) : (⟨.quoted, 0⟩ : Place).walk (cs.flatMap escape) = some ⟨.quoted, 0⟩ := by
    induction cs with
    | nil => rfl
    | cons c cs ih => rw [List.flatMap_cons, Place.walk_append, walk_escape, Option.bind_some, ih]
  have hopen : (⟨.outside, 0⟩ : Place).move (sign '"') = some ⟨.quoted, 0⟩ := rfl
  rw [Level, Json.quote, Place.walk_cons, hopen, Option.bind_some, Place.walk_append, hinside]
  rfl

end Level

theorem sign_digit {c : Char} (h : c.isDigit = true) : sign c = .plain := by
  have hother : ∀ d ∈ ['"', '\\', '[', '{', ']', '}'], c ≠ d := by
    rintro d hd rfl
    have hdigit : ∀ d ∈ ['"', '\\', '[', '{', ']', '}'], d.isDigit = false := by simp
    rw [hdigit c hd] at h
    cases h
  simp only [List.forall_mem_cons] at hother
  simp [sign, hother]

theorem level_integer (n : Int) : Level (toString n).toList := by
  have hdigits (n : Nat) : Level (Nat.toDigits 10 n) :=
    Level.of_plain fun c hc => sign_digit (Nat.isDigit_of_mem_toDigits (by decide) (by decide) hc)
  cases n with
  | ofNat n =>
      rw [toList_toString_ofNat]
      exact hdigits n
  | negSucc n =>
      rw [toList_toString_negSucc]
      exact (hdigits (n + 1)).cons rfl

theorem level_items {items : List Json} (h : ∀ j ∈ items, Level j.compactChars) :
    Level (compactItems items) := by
  induction items with
  | nil => exact .nil
  | cons j rest ih =>
      have hj := h j List.mem_cons_self
      have hrest := ih fun k hk => h k (List.mem_cons_of_mem j hk)
      cases rest with
      | nil => exact hj
      | cons k rest => exact hj.append (hrest.cons rfl)

theorem level_fields {fields : Fields} (h : ∀ f ∈ fields, Level f.2.compactChars) :
    Level (compactFields fields) := by
  induction fields with
  | nil => exact .nil
  | cons f rest ih =>
      have hf := h f List.mem_cons_self
      have hrest := ih fun k hk => h k (List.mem_cons_of_mem f hk)
      cases rest with
      | nil => exact (Level.quote f.1.text).append (hf.cons rfl)
      | cons k rest => exact (Level.quote f.1.text).append ((hf.append (hrest.cons rfl)).cons rfl)

theorem Plain.level (h : Plain j) : Level j.compactChars := by
  induction h with
  | null => rfl
  | bool b => cases b <;> rfl
  | integer n => exact level_integer n
  | string s => exact .quote s
  | array _ ih => exact .bracket rfl rfl (level_items ih)
  | record _ ih => exact .bracket rfl rfl (level_fields ih)

/-- A plain array or record. -/
inductive Nested : Json → Prop
  | array {items : List Json} (h : ∀ j ∈ items, Plain j) : Nested (.array items)
  | record {fields : Fields} (h : ∀ f ∈ fields, Plain f.2) : Nested (.record fields)

theorem Nested.plain (h : Nested j) : Plain j := by
  cases h with
  | array h => exact .array h
  | record h => exact .record h

theorem Nested.compactChars_eq (h : Nested j) :
    ∃ o s c, j.compactChars = o :: (s ++ [c]) ∧ (o = '[' ∨ o = '{') ∧ Level s := by
  cases h with
  | array h => exact ⟨_, _, _, rfl, Or.inl rfl, level_items fun j hj => (h j hj).level⟩
  | record h => exact ⟨_, _, _, rfl, Or.inr rfl, level_fields fun f hf => (h f hf).level⟩

theorem Nested.walk_ne (h : Nested j) {x y : List Char} (hxy : j.compactChars = x ++ y)
    (hx : x ≠ []) (hy : y ≠ []) :
    (⟨.outside, 0⟩ : Place).walk x ≠ some ⟨.outside, 0⟩ := by
  obtain ⟨o, s, c, hchars, ho, hs⟩ := h.compactChars_eq
  obtain ⟨a, x, rfl⟩ := List.exists_cons_of_ne_nil hx
  obtain ⟨y, b, rfl⟩ := List.eq_nil_or_concat y |>.resolve_left hy
  rw [hchars, List.concat_eq_append, List.cons_append, ← List.append_assoc, List.cons.injEq] at hxy
  obtain ⟨rfl, hxy⟩ := hxy
  obtain ⟨rfl, -⟩ := List.append_inj' hxy rfl
  rw [Level, Place.walk_append, Option.bind_eq_some_iff] at hs
  obtain ⟨p, hp, -⟩ := hs
  have hsign : sign o = .opening := by rcases ho with rfl | rfl <;> rfl
  have hopen : (⟨.outside, 0⟩ : Place).move .opening = some (Place.deeper ⟨.outside, 0⟩) := rfl
  rw [Place.walk_cons, hsign, hopen, Option.bind_some, Place.walk_deeper hp]
  intro he
  cases congrArg (Option.map Place.depth) he

def row (values : List Json) : List Char := values.flatMap compactChars

theorem level_row (h : ∀ j ∈ values, Nested j) : Level (row values) := by
  induction values with
  | nil => exact .nil
  | cons j rest ih =>
      exact (h j List.mem_cons_self).plain.level.append (ih fun k hk => h k (List.mem_cons_of_mem j hk))

theorem exists_row_of_walk (h : ∀ j ∈ values, Nested j) {x y : List Char}
    (hxy : row values = x ++ y) (hx : (⟨.outside, 0⟩ : Place).walk x = some ⟨.outside, 0⟩) :
    ∃ first last, values = first ++ last ∧ x = row first := by
  induction values generalizing x with
  | nil => exact ⟨[], [], rfl, (List.append_eq_nil_iff.mp hxy.symm).1⟩
  | cons j rest ih =>
      have hj := h j List.mem_cons_self
      rcases List.append_eq_append_iff.mp hxy with ⟨x', rfl, hrest⟩ | ⟨y', hchars, rfl⟩
      · rw [Place.walk_append, hj.plain.level] at hx
        obtain ⟨first, last, rfl, rfl⟩ := ih (fun k hk => h k (List.mem_cons_of_mem j hk)) hrest hx
        exact ⟨j :: first, last, rfl, rfl⟩
      · by_cases hempty : x = []
        · exact ⟨[], j :: rest, rfl, hempty⟩
        · by_cases hy : y' = []
          · exact ⟨[j], rest, rfl,
              by rw [hy, List.append_nil] at hchars; rw [row, List.flatMap_singleton, hchars]⟩
          · exact absurd hx (hj.walk_ne hchars hempty hy)

/-- What is left of a row when it ends like another row is a row itself: there is no other way to
cut a row than between two of its values. -/
theorem exists_row_of_append {values others : List Json} (h : ∀ j ∈ values, Nested j)
    (ho : ∀ j ∈ others, Nested j) {x : List Char} (hx : row values = x ++ row others) :
    ∃ first last, values = first ++ last ∧ x = row first := by
  have hwalk := level_row h
  rw [Level, hx, Place.walk_append, Option.bind_eq_some_iff] at hwalk
  obtain ⟨⟨mode, depth⟩, hp, hrest⟩ := hwalk
  have hothers := (level_row ho).walk
  cases mode with
  | outside =>
      -- The other row leaves the depth as it was, so nothing is open before it.
      rw [hothers depth] at hrest
      cases hrest
      exact exists_row_of_walk h hx hp
  | quoted =>
      -- The other row ends outside of strings for a walk that starts there, so it does not for this one.
      have hacross : (⟨.outside, 0⟩ : Place).Across ⟨.quoted, depth⟩ := Or.inl ⟨rfl, rfl⟩
      rcases hacross.walk (hothers 0) hrest with ⟨-, hmode⟩ | ⟨hmode, -⟩ <;> cases hmode
  | escaped =>
      cases others with
      | nil => cases hrest
      | cons j rest =>
          obtain ⟨o, s, c, hchars, hopen, -⟩ := (ho j List.mem_cons_self).compactChars_eq
          have hsign : sign o = .opening := by rcases hopen with rfl | rfl <;> rfl
          rw [row, List.flatMap_cons, hchars, List.cons_append, Place.walk_cons, hsign] at hrest
          cases hrest

theorem ends_row (h : ∀ j ∈ values, Nested j) : Ends (row values) := by
  cases values with
  | nil => exact ends_nil
  | cons j rest =>
      obtain ⟨o, s, c, hchars, ho, -⟩ := (h j List.mem_cons_self).compactChars_eq
      rw [row, List.flatMap_cons, hchars, List.cons_append]
      exact ends_cons (by rcases ho with rfl | rfl <;> simp) _

/-- A row tells its values. -/
theorem asRead_of_row {values others : List Json} (h : ∀ j ∈ values, Nested j)
    (ho : ∀ j ∈ others, Nested j) (he : row values = row others) :
    values.map asRead = others.map asRead := by
  induction values generalizing others with
  | nil =>
      cases others with
      | nil => rfl
      | cons k others =>
          obtain ⟨o, s, c, hchars, -⟩ := (ho k List.mem_cons_self).compactChars_eq
          rw [row, row, List.flatMap_nil, List.flatMap_cons, hchars] at he
          cases he
  | cons j values ih =>
      cases others with
      | nil =>
          obtain ⟨o, s, c, hchars, -⟩ := (h j List.mem_cons_self).compactChars_eq
          rw [row, row, List.flatMap_nil, List.flatMap_cons, hchars] at he
          cases he
      | cons k others =>
          have hvalues (i : Json) (hi : i ∈ values) := h i (List.mem_cons_of_mem j hi)
          have hothers (i : Json) (hi : i ∈ others) := ho i (List.mem_cons_of_mem k hi)
          have hj := (h j List.mem_cons_self).plain.reads_compact (row (j :: values)).length (row values)
            (by rw [row, List.flatMap_cons, List.length_append]; omega) (ends_row hvalues)
          have hk := (ho k List.mem_cons_self).plain.reads_compact (row (k :: others)).length (row others)
            (by rw [row, List.flatMap_cons, List.length_append]; omega) (ends_row hothers)
          have hboth := hj.symm.trans ((congrArg (fun s => value? s.length s) he).trans hk)
          obtain ⟨hread, hrest⟩ := Prod.mk.inj (Option.some.inj hboth)
          rw [List.map_cons, List.map_cons, hread, ih hvalues hothers hrest]

end VisualScript.Json
