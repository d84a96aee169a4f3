import VisualScript.Class.Symbols
import VisualScript.Proofs.OrderedMap

namespace VisualScript

namespace TermTable

def Placed (t : TermTable) : Prop := ∀ i term, t.get? i = some term → term.id = i

/-- The id of a term is its place, and what is bound or declared is in the table. -/
structure Valid (t : TermTable) : Prop where
  ids : ∀ {i : TermId} {term : Term}, t.get? i = some term → term.id = i
  nets : ∀ {p : PortRef} {id : TermId}, t.net? p = some id → id < t.terms.length
  declared : ∀ {k : TermKind × String} {id : TermId}, t.declared.get? k = some id → id < t.terms.length

theorem valid_empty : Valid {} := ⟨nofun, nofun, nofun⟩

variable {t t' : TermTable} {r : TermId × TermTable} {kind : TermKind} {type : PinType} {name : String}

theorem Placed.map_id (h : t.Placed) : t.terms.map Term.id = List.range t.terms.length := by
  refine List.ext_getElem (by simp) fun i hi _ => ?_
  rw [List.getElem_map, List.getElem_range]
  exact h _ _ (List.getElem?_eq_getElem _)

theorem Placed.id_lt (h : t.Placed) {a : Term} (ha : a ∈ t.terms) : a.id < t.terms.length :=
  List.mem_range.mp (h.map_id ▸ List.mem_map_of_mem ha)

theorem Valid.placed (h : t.Valid) : t.Placed := fun _ _ => h.ids

theorem Valid.names (h : t.Valid) (names : NameTable) (literalCount : Nat) :
    Valid { t with names, literalCount } :=
  ⟨h.ids, h.nets, h.declared⟩

theorem Valid.push (h : t.Valid) (kind : TermKind) (name declared : String) (type : PinType)
    (literal : Option String) :
    (t.push kind name declared type literal).2.Valid := by
  have hlength : (t.push kind name declared type literal).2.terms.length = t.terms.length + 1 := by
    simp [TermTable.push]
  refine ⟨?_, ?_, ?_⟩
  · intro i term hi
    rw [get?, TermTable.push] at hi
    rcases Nat.lt_or_ge i t.terms.length with hlt | hge
    · rw [List.getElem?_append_left hlt] at hi
      exact h.ids hi
    · rw [List.getElem?_append_right hge] at hi
      obtain ⟨hzero, rfl⟩ := List.getElem?_eq_some_iff.mp hi
      rw [List.getElem_singleton]
      exact Nat.le_antisymm hge (Nat.sub_eq_zero_iff_le.mp (Nat.lt_one_iff.mp hzero))
  · intro p id hp
    rw [hlength]
    exact Nat.lt_succ_of_lt (h.nets hp)
  · intro k id hk
    rw [hlength]
    exact Nat.lt_succ_of_lt (h.declared hk)

theorem Valid.rename (h : t.Valid) (id : TermId) (name : String) : (t.rename id name).Valid := by
  have hlength : (t.rename id name).terms.length = t.terms.length := List.length_modify _ _ _
  refine ⟨?_, ?_, ?_⟩
  · intro i term hi
    rw [get?, TermTable.rename, List.getElem?_modify] at hi
    obtain ⟨old, hold, rfl⟩ := Option.map_eq_some_iff.mp hi
    have hid : old.id = i := h.ids hold
    by_cases hi : id = i <;> simpa [hi] using hid
  · intro p k hp
    rw [hlength]
    exact h.nets hp
  · intro k k' hk
    rw [hlength]
    exact h.declared hk

theorem Valid.declare (h : t.Valid) (k : TermKind × String) {id : TermId} (hid : id < t.terms.length) :
    Valid { t with declared := t.declared.insert k id } := by
  refine ⟨h.ids, h.nets, ?_⟩
  intro k' id' hk'
  rw [OrderedMap.get?_insert] at hk'
  split at hk'
  · cases hk'
    exact hid
  · exact h.declared hk'

theorem Valid.bind (h : t.Valid) (p : PortRef) {id : TermId} (hid : id < t.terms.length) :
    (t.bind p id).Valid := by
  refine ⟨h.ids, ?_, h.declared⟩
  intro p' id' hp
  rw [net?, TermTable.bind, OrderedMap.get?_insert] at hp
  split at hp
  · cases hp
    exact hid
  · exact h.nets hp

/-- A valid table comes out that is no shorter, and the id is one of it. -/
structure Gives (t : TermTable) (r : TermId × TermTable) : Prop where
  valid : r.2.Valid
  length_le : t.terms.length ≤ r.2.terms.length
  lt : r.1 < r.2.terms.length

theorem Valid.gives_push (h : t.Valid) (kind : TermKind) (name declared : String) (type : PinType)
    (literal : Option String) :
    t.Gives (t.push kind name declared type literal) :=
  ⟨h.push kind name declared type literal, by simp [TermTable.push], by simp [TermTable.push]⟩

theorem Valid.gives_add (h : t.Valid) (kind : TermKind) (declared : String) (type : PinType) :
    t.Gives (t.add kind declared type) := by
  have hpush := (h.names (t.names.fresh declared).2 t.literalCount).gives_push kind
    (t.names.fresh declared).1 declared type none
  refine ⟨?_, hpush.length_le, hpush.lt⟩
  simp only [add]
  unfold OrderedMap.insertIfNew
  split
  · exact hpush.valid
  · exact hpush.valid.declare _ hpush.lt

theorem Valid.gives_addLocal (h : t.Valid) (declared : String) (type : PinType) (initial : Option String) :
    t.Gives (t.addLocal declared type initial) := by
  have hadd := h.gives_add .local declared type
  rw [addLocal]
  cases initial with
  | none => exact hadd
  | some value => exact ⟨⟨hadd.valid.ids, hadd.valid.nets, hadd.valid.declared⟩, hadd.length_le, hadd.lt⟩

theorem Valid.gives_addLiteral (h : t.Valid) (type : PinType) (value : String) :
    t.Gives (t.addLiteral type value) := by
  have hnamed := h.names (t.names.fresh ("Literal_" ++ toString t.literalCount)).2 (t.literalCount + 1)
  have hpush := hnamed.gives_push .literal (t.names.fresh ("Literal_" ++ toString t.literalCount)).1
    ("Literal_" ++ toString t.literalCount) type (some value)
  exact ⟨hpush.valid, hpush.length_le, hpush.lt⟩

/-- A table in which names were made free. -/
inductive Renamed (t : TermTable) : TermTable → Prop
  | names (names : NameTable) : Renamed t { t with names }
  | rename (names : NameTable) (id : TermId) (name : String) : Renamed t ({ t with names }.rename id name)

theorem Renamed.length (h : t.Renamed t') : t'.terms.length = t.terms.length := by
  cases h with
  | names => rfl
  | rename => exact List.length_modify _ _ _

theorem Renamed.declared (h : t.Renamed t') : t'.declared = t.declared := by
  cases h <;> rfl

theorem Renamed.valid (h : t.Renamed t') (ht : t.Valid) : t'.Valid := by
  cases h with
  | names names => exact ht.names names _
  | rename names id name => exact (ht.names names _).rename id name

def declareSlot (t : TermTable) (kind : TermKind) (name : String) (type : PinType) : TermId × TermTable :=
  let (id, t) := t.push kind name name type
  (id, { t with declared := t.declared.insert (kind, name) id })

/-- A slot is the one that is declared, or it is declared now, behind all terms. -/
theorem member_cases (h : t.member kind name type = .ok r) :
    (t.declared.get? (kind, name) = some r.1 ∧ r.2 = t) ∨
      (t.declared.get? (kind, name) = none ∧ ∃ u, t.Renamed u ∧ r = u.declareSlot kind name type) := by
  unfold member at h
  cases hk : t.declared.get? (kind, name) with
  | some id =>
      rw [hk] at h
      cases h
      exact Or.inl ⟨rfl, rfl⟩
  | none =>
      rw [hk] at h
      refine Or.inr ⟨rfl, ?_⟩
      simp only at h
      split at h
      · cases h
        exact ⟨_, .names _, rfl⟩
      · split at h
        · cases h
          exact ⟨_, .names t.names, rfl⟩
        · split at h
          · cases h
          · cases h
            exact ⟨_, .rename _ _ _, rfl⟩

theorem find?_member (h : t.member kind name type = .ok r) : r.2.find? kind name = some r.1 := by
  rcases member_cases h with ⟨hd, he⟩ | ⟨_, u, _, rfl⟩
  · rw [he]
    exact hd
  · exact (OrderedMap.get?_insert _ _ _ _).trans (if_pos rfl)

theorem le_member (h : t.member kind name type = .ok r) (hk : t.declared.get? (kind, name) = none) :
    t.terms.length ≤ r.1 := by
  rcases member_cases h with ⟨hd, _⟩ | ⟨_, u, hu, rfl⟩
  · exact absurd (hk.symm.trans hd) (Option.some_ne_none r.1).symm
  · exact Nat.le_of_eq hu.length.symm

theorem Valid.gives_member (h : t.Valid) (hr : t.member kind name type = .ok r) : t.Gives r := by
  rcases member_cases hr with ⟨hd, ht⟩ | ⟨_, u, hu, rfl⟩
  · rw [← ht] at h hd ⊢
    exact ⟨h, Nat.le_refl _, h.declared hd⟩
  · have hpush := (hu.valid h).gives_push kind name name type none
    exact ⟨hpush.valid.declare _ hpush.lt, hu.length ▸ hpush.length_le, hpush.lt⟩

end TermTable

namespace SymbolTable

variable {t : TermTable} {k : TermId} {term : Term}

theorem contains_foldl {β : Type} {f : SymbolTable → β → SymbolTable} {P : β → Prop}
    (hf : ∀ s b, (f s b).symbols.contains k = true ↔ s.symbols.contains k = true ∨ P b) (l : List β)
    (s : SymbolTable) :
    (l.foldl f s).symbols.contains k = true ↔ s.symbols.contains k = true ∨ ∃ b ∈ l, P b := by
  induction l generalizing s with
  | nil => simp
  | cons b rest ih =>
      rw [List.foldl_cons, ih, hf]
      simp only [List.mem_cons, exists_eq_or_imp, or_assoc]

theorem contains_addParameter (t : TermTable) (s : SymbolTable) (p : TermId × Nat) :
    (addParameter t s p).symbols.contains k = true ↔ s.symbols.contains k = true ∨
      (p.1 = k ∧ k < t.terms.length) := by
  unfold addParameter
  cases hp : t.get? p.1 with
  | none =>
      have hge : ¬(p.1 = k ∧ k < t.terms.length) := by
        rintro ⟨rfl, hlt⟩
        exact absurd (List.getElem?_eq_none_iff.mp hp) (Nat.not_le_of_lt hlt)
      simp only [hge, or_false]
  | some term =>
      have hlt : p.1 < t.terms.length := (List.getElem?_eq_some_iff.mp hp).1
      simp only [OrderedMap.contains_insert]
      constructor
      · rintro (rfl | hk)
        · exact Or.inr ⟨rfl, hlt⟩
        · exact Or.inl hk
      · rintro (hk | ⟨rfl, _⟩)
        · exact Or.inr hk
        · exact Or.inl rfl

def isParameter (term : Term) : Bool := term.kind = .parameter || term.kind = .output

/-- The symbol of a term that is no parameter, if so many slots are taken before it. -/
def symbolOf (promoteLocals : Bool) (term : Term) (slot : Nat) : Symbol :=
  match term.kind with
  | .local =>
      if promoteLocals then ⟨term.id, frameName term.name, term.type, .member (frameName term.name)⟩
      else ⟨term.id, term.name, term.type, .local slot⟩
  | .literal => ⟨term.id, term.name, term.type, .literal (term.literal.getD "")⟩
  | _ => ⟨term.id, term.name, term.type, .member term.name⟩

theorem addTerm_of_parameter (h : isParameter term = true) (promoteLocals : Bool) (s : SymbolTable) :
    addTerm t promoteLocals s term = s := by
  rw [isParameter, Bool.or_eq_true, decide_eq_true_eq, decide_eq_true_eq] at h
  rcases h with hk | hk <;> rw [addTerm, hk]

theorem symbols_addTerm (h : isParameter term = false) (promoteLocals : Bool) (s : SymbolTable) :
    (addTerm t promoteLocals s term).symbols =
      s.symbols.insert term.id (symbolOf promoteLocals term s.locals.length) := by
  unfold addTerm symbolOf
  cases hk : term.kind with
  | parameter | output => simp [isParameter, hk] at h
  | «local» => cases promoteLocals <;> rfl
  | literal | member | persistentFrame => rfl

theorem contains_addTerm (t : TermTable) (promoteLocals : Bool) (s : SymbolTable) (term : Term) :
    (addTerm t promoteLocals s term).symbols.contains k = true ↔
      s.symbols.contains k = true ∨ (term.id = k ∧ isParameter term = false) := by
  cases hp : isParameter term with
  | true => simp [addTerm_of_parameter hp]
  | false =>
      rw [symbols_addTerm hp, OrderedMap.contains_insert, or_comm, eq_comm (a := k),
        and_iff_left rfl]

theorem mem_parameterTerms (h : t.Placed) (signature : Signature) (hk : t.get? k = some term)
    (hp : isParameter term = true) : k ∈ parameterTerms t signature := by
  have hid := h _ _ hk
  rw [parameterTerms]
  by_cases hnamed : k ∈ signature.params.filterMap fun p => t.find? (termKind p.direction) p.name
  · exact List.mem_append_left _ hnamed
  · refine List.mem_append_right _
      (List.mem_map.mpr ⟨term, List.mem_filter.mpr ⟨List.mem_of_getElem? hk, ?_⟩, hid⟩)
    rw [Bool.and_eq_true]
    exact ⟨hp, decide_eq_true (hid ▸ hnamed)⟩

theorem contains_ofTerms_iff (h : t.Placed) (signature : Signature) (promoteLocals : Bool) :
    (ofTerms t signature promoteLocals).symbols.contains k = true ↔ k < t.terms.length := by
  rw [ofTerms, contains_foldl (contains_addTerm t promoteLocals), contains_foldl (contains_addParameter t)]
  constructor
  · rintro ((hk | ⟨_, _, _, hlt⟩) | ⟨term, hmem, rfl, _⟩)
    · cases hk
    · exact hlt
    · obtain ⟨i, hi⟩ := List.mem_iff_getElem?.mp hmem
      rw [h _ _ hi]
      exact (List.getElem?_eq_some_iff.mp hi).1
  · intro hlt
    obtain ⟨term, hk⟩ : ∃ term, t.get? k = some term := ⟨_, List.getElem?_eq_getElem hlt⟩
    cases hp : isParameter term with
    | true =>
        obtain ⟨i, hi⟩ := List.mem_iff_getElem?.mp (mem_parameterTerms h signature hk hp)
        exact Or.inl (Or.inr ⟨(k, i), List.mem_zipIdx_iff_getElem?.mpr hi, rfl, hlt⟩)
    | false => exact Or.inr ⟨term, List.mem_of_getElem? hk, h _ _ hk, hp⟩

theorem contains_ofTerms (h : t.Valid) (signature : Signature) (promoteLocals : Bool) :
    (ofTerms t signature promoteLocals).symbols.contains k = true ↔ k < t.terms.length :=
  contains_ofTerms_iff h.placed signature promoteLocals

end SymbolTable

end VisualScript
