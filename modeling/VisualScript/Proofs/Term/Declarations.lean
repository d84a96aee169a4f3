import VisualScript.Proofs.Term.Changes

namespace VisualScript

/-- What a term is declared as: its kind, its name in the source and its type. -/
abbrev Declaration := TermKind × String × PinType

def Declaration.place? (roll : List Declaration) (kind : TermKind) (name : String) : Option TermId :=
  roll.findIdx? fun d => d.1 = kind && d.2.1 = name

namespace TermTable

def roll (t : TermTable) : List Declaration := t.terms.map fun a => (a.kind, a.declared, a.type)

/-- A name is looked up where it was declared first. Literals are not looked up. -/
def Indexed (t : TermTable) : Prop :=
  ∀ (kind : TermKind) (name : String), kind ≠ .literal →
    t.find? kind name = Declaration.place? t.roll kind name

variable {slots : TermKind → String → PinType → Prop} {sites : PortRef → Prop} {t t' : TermTable}
    {kind : TermKind} {name : String}
variable {i : TermId} {type : PinType}

theorem indexed_empty : Indexed {} := fun _ _ _ => rfl

theorem getElem?_roll (t : TermTable) (i : TermId) :
    t.roll[i]? = (t.get? i).map fun a => (a.kind, a.declared, a.type) :=
  List.getElem?_map

theorem length_roll (t : TermTable) : t.roll.length = t.terms.length := List.length_map _

theorem roll_push (t : TermTable) (kind : TermKind) (name declared : String) (type : PinType)
    (literal : Option String) :
    (t.push kind name declared type literal).2.roll = t.roll ++ [(kind, declared, type)] := by
  simp [roll, push]

theorem roll_add (t : TermTable) (kind : TermKind) (declared : String) (type : PinType) :
    (t.add kind declared type).2.roll = t.roll ++ [(kind, declared, type)] :=
  roll_push _ _ _ _ _ _

theorem roll_addLocal (t : TermTable) (declared : String) (type : PinType) (initial : Option String) :
    (t.addLocal declared type initial).2.roll = t.roll ++ [(.local, declared, type)] := by
  rw [addLocal]
  cases initial <;> exact roll_add t .local declared type

theorem roll_addLiteral (t : TermTable) (type : PinType) (value : String) : ∃ declared,
    (t.addLiteral type value).2.roll = t.roll ++ [(.literal, declared, type)] :=
  ⟨_, roll_push _ _ _ _ _ _⟩

theorem Renamed.map_terms {α : Type} (h : t.Renamed t') {f : Term → α}
    (hf : ∀ a name, f { a with name } = f a) :
    t'.terms.map f = t.terms.map f := by
  cases h with
  | names => rfl
  | rename names id name =>
      refine List.ext_getElem? fun i => ?_
      rw [List.getElem?_map, List.getElem?_map]
      change Option.map f (TermTable.get? _ i) = Option.map f (t.get? i)
      rw [get?_rename, Option.map_map]
      refine congrArg (fun f => (t.get? i).map f) (funext fun a => ?_)
      rw [Function.comp_apply, apply_ite f, hf, ite_self]

theorem Renamed.roll (h : t.Renamed t') : t'.roll = t.roll := h.map_terms fun _ _ => rfl

theorem roll_member {r : TermId × TermTable} (h : t.member kind name type = .ok r) :
    r.2 = t ∨ r.2.roll = t.roll ++ [(kind, name, type)] := by
  rcases member_cases h with ⟨_, he⟩ | ⟨_, u, hu, rfl⟩
  · exact Or.inl he
  · exact Or.inr ((roll_push u kind name name type none).trans (by rw [hu.roll]))

theorem place?_snoc (roll : List Declaration) (d : Declaration) (kind : TermKind) (name : String) :
    Declaration.place? (roll ++ [d]) kind name =
      (Declaration.place? roll kind name).or (if d.1 = kind ∧
        d.2.1 = name then some roll.length else none) := by
  rw [Declaration.place?, List.findIdx?_append, Declaration.place?]
  by_cases h : d.1 = kind ∧ d.2.1 = name
  · simp [List.findIdx?_cons, h.1, h.2]
  · rw [if_neg h]
    simp [List.findIdx?_cons, h]

theorem Indexed.snoc (h : t.Indexed) {declared : String}
    (hroll : t'.roll = t.roll ++ [(kind, declared, type)])
    (hfind : ∀ (kind' : TermKind) (name : String), t'.find? kind' name = (t.find? kind' name).or
      (if kind = kind' ∧ declared = name then some t.roll.length else none)) :
    t'.Indexed := by
  intro kind' name hk
  rw [hfind, hroll, place?_snoc, h kind' name hk]

theorem Indexed.add (h : t.Indexed) (kind : TermKind) (declared : String) (type : PinType) :
    (t.add kind declared type).2.Indexed := by
  refine h.snoc (roll_add t kind declared type) fun kind' name => ?_
  have hfind : (t.add kind declared type).2.find? kind' name =
      (t.declared.insertIfNew (kind, declared) t.terms.length).get? (kind', name) := rfl
  rw [hfind, OrderedMap.insertIfNew, length_roll, find?]
  by_cases hk : kind = kind' ∧ declared = name
  · obtain ⟨rfl, rfl⟩ := hk
    cases hd : t.declared.get? (kind, declared) with
    | some i => simp [OrderedMap.contains_eq_isSome, hd]
    | none => simp [OrderedMap.contains_eq_isSome, hd, OrderedMap.get?_insert]
  · rw [if_neg hk, Option.or_none]
    split
    · rfl
    · refine OrderedMap.get?_insert_of_ne _ _ fun he => ?_
      cases he
      exact hk ⟨rfl, rfl⟩

theorem Indexed.addLiteral (h : t.Indexed) (type : PinType) (value : String) :
    (t.addLiteral type value).2.Indexed := by
  obtain ⟨declared, hroll⟩ := roll_addLiteral t type value
  intro kind name hk
  rw [hroll, place?_snoc, if_neg fun he => hk he.1.symm, Option.or_none]
  exact h kind name hk

theorem Indexed.member (h : t.Indexed) {r : TermId × TermTable} (hr : t.member kind name type = .ok r) :
    r.2.Indexed := by
  rcases member_cases hr with ⟨_, he⟩ | ⟨hnone, u, hu, rfl⟩
  · exact he ▸ h
  · have hroll := (roll_push u kind name name type none).trans (by rw [hu.roll])
    refine h.snoc hroll fun kind' name' => ?_
    have hfind : (u.declareSlot kind name type).2.find? kind' name' =
        (u.declared.insert (kind, name) u.terms.length).get? (kind', name') := rfl
    rw [hfind, hu.declared, hu.length, OrderedMap.get?_insert, length_roll, find?]
    by_cases hk : kind = kind' ∧ name = name'
    · obtain ⟨rfl, rfl⟩ := hk
      simp [hnone]
    · rw [if_neg hk, if_neg fun he => hk ⟨(Prod.mk.inj he).1.symm, (Prod.mk.inj he).2.symm⟩,
        Option.or_none]

theorem Indexed.bind (h : t.Indexed) (p : PortRef) (id : TermId) : (t.bind p id).Indexed := h

theorem Change.indexed (h : Change sites slots t t') (ht : t.Indexed) : t'.Indexed := by
  cases h with
  | add kind declared type => exact ht.add kind declared type
  | initial | bind => exact ht
  | literal type value => exact ht.addLiteral type value
  | slot kind name type r _ hr => exact ht.member hr

theorem Changes.indexed (h : Changes sites slots t t') (ht : t.Indexed) : t'.Indexed := by
  induction h with
  | refl => exact ht
  | tail _ h ih => exact h.indexed ih

theorem Change.roll (h : Change sites slots t t') : t.roll <+: t'.roll := by
  cases h with
  | add kind declared type => exact ⟨_, (roll_add t kind declared type).symm⟩
  | initial | bind => exact List.prefix_rfl
  | literal type value =>
      obtain ⟨declared, hroll⟩ := roll_addLiteral t type value
      exact ⟨_, hroll.symm⟩
  | slot kind name type r _ hr =>
      rcases roll_member hr with he | hroll
      · exact he ▸ List.prefix_rfl
      · exact ⟨_, hroll.symm⟩

theorem Changes.roll (h : Changes sites slots t t') : t.roll <+: t'.roll := by
  induction h with
  | refl => exact List.prefix_rfl
  | tail _ h ih => exact ih.trans h.roll

theorem place?_of_prefix {roll roll' : List Declaration} (h : roll <+: roll')
    (hi : Declaration.place? roll kind name = some i) : Declaration.place? roll' kind name = some i := by
  obtain ⟨rest, rfl⟩ := h
  rw [Declaration.place?, List.findIdx?_append, ← Declaration.place?, hi]
  rfl

theorem Changes.find? (h : Changes sites slots t t') (ht : t.Indexed) (hk : kind ≠ .literal)
    (hi : t.find? kind name = some i) : t'.find? kind name = some i := by
  rw [Changes.indexed h ht kind name hk]
  exact place?_of_prefix (Changes.roll h) (ht kind name hk ▸ hi)

theorem Indexed.getElem? (ht : t.Indexed) (hk : kind ≠ .literal) (hi : t.find? kind name = some i) :
    ∃ type, t.roll[i]? = some (kind, name, type) := by
  rw [ht kind name hk] at hi
  obtain ⟨hlt, hd, _⟩ := List.findIdx?_eq_some_iff_getElem.mp hi
  rw [Bool.and_eq_true, decide_eq_true_eq, decide_eq_true_eq] at hd
  obtain ⟨rfl, rfl⟩ := hd
  exact ⟨_, List.getElem?_eq_getElem hlt⟩

theorem Indexed.isSome_find? (ht : t.Indexed) (hk : kind ≠ .literal) :
    (t.find? kind name).isSome = true ↔ ∃ type, (kind, name, type) ∈ t.roll := by
  rw [ht kind name hk, Declaration.place?, List.findIdx?_isSome, List.any_eq_true]
  constructor
  · rintro ⟨⟨kind', name', type⟩, hd, he⟩
    simp only [Bool.and_eq_true, decide_eq_true_eq] at he
    obtain ⟨rfl, rfl⟩ := he
    exact ⟨type, hd⟩
  · rintro ⟨type, hd⟩
    exact ⟨_, hd, by simp⟩

theorem Indexed.find?_inj (ht : t.Indexed) {kind' : TermKind} {name' : String}
    (hk : kind ≠ .literal) (hk' : kind' ≠ .literal) (hi : t.find? kind name = some i)
    (hi' : t.find? kind' name' = some i) : kind = kind' ∧ name = name' := by
  obtain ⟨type, hd⟩ := ht.getElem? hk hi
  obtain ⟨type', hd'⟩ := ht.getElem? hk' hi'
  cases hd.symm.trans hd'
  exact ⟨rfl, rfl⟩

end TermTable

end VisualScript
