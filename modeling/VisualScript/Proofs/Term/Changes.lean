import VisualScript.Proofs.Term.Names
import VisualScript.Proofs.Term.Storage

namespace VisualScript

/-- The same value. Only a term of the function may have changed its name. -/
structure Term.Alike (a b : Term) : Prop where
  kind : b.kind = a.kind
  declared : b.declared = a.declared
  type : b.type = a.type
  name : a.kind.isClassScope = true → b.name = a.name

theorem Term.Alike.refl (a : Term) : a.Alike a := ⟨rfl, rfl, rfl, fun _ => rfl⟩

theorem Term.Alike.trans {a b c : Term} (h : a.Alike b) (h' : b.Alike c) : a.Alike c :=
  ⟨h'.kind.trans h.kind, h'.declared.trans h.declared, h'.type.trans h.type,
    fun hscope => (h'.name (h.kind ▸ hscope)).trans (h.name hscope)⟩

namespace TermTable

/-- The names of the terms are taken and all different. A declared slot of the class is a term that bears
the name of the slot. -/
structure Orderly (t : TermTable) : Prop where
  ids : ∀ {i : TermId} {a : Term}, t.get? i = some a → a.id = i
  taken : ∀ {i : TermId} {a : Term}, t.get? i = some a → t.names.contains a.name = true
  apart : ∀ {i j : TermId} {a b : Term}, t.get? i = some a → t.get? j = some b → a.name = b.name → i = j
  slots : ∀ {kind : TermKind} {name : String} {i : TermId}, kind.isClassScope = true →
    t.declared.get? (kind, name) = some i → ∃ a, t.get? i = some a ∧ a.kind = kind ∧ a.name = name

/-- The terms there were are still there, and new slots of the class are as asked for. -/
structure Keeps (slots : TermKind → String → PinType → Prop) (t t' : TermTable) : Prop where
  old : ∀ {i : TermId} {a : Term}, t.get? i = some a → ∃ b, t'.get? i = some b ∧ a.Alike b
  new : ∀ {i : TermId} {b : Term}, t'.get? i = some b → t.get? i = none → b.kind.isClassScope = true →
    slots b.kind b.name b.type

variable {slots : TermKind → String → PinType → Prop} {sites : PortRef → Prop} {t t' t'' : TermTable}
variable {kind : TermKind} {name : String} {r : TermId × TermTable} {type : PinType} {p : PortRef}
    {i : TermId}

theorem Orderly.placed (h : t.Orderly) : t.Placed := fun _ _ => h.ids

theorem orderly_empty : Orderly {} := ⟨nofun, nofun, nofun, nofun⟩

theorem Keeps.of_terms (h : t'.terms = t.terms) : Keeps slots t t' where
  old {i a} ha := by
    refine ⟨a, ?_, .refl a⟩
    rw [get?, h]
    exact ha
  new {i b} hb hi := by
    rw [get?, h, ← get?, hi] at hb
    cases hb

theorem Keeps.trans (h : Keeps slots t t') (h' : Keeps slots t' t'') : Keeps slots t t'' where
  old ha := by
    obtain ⟨b, hb, hab⟩ := h.old ha
    obtain ⟨c, hc, hbc⟩ := h'.old hb
    exact ⟨c, hc, hab.trans hbc⟩
  new {i c} hc hi hscope := by
    cases hb : t'.get? i with
    | none => exact h'.new hc hb hscope
    | some b =>
        obtain ⟨c', hc', hbc⟩ := h'.old hb
        cases hc.symm.trans hc'
        have hslot := h.new hb hi (hbc.kind ▸ hscope)
        rwa [hbc.kind, hbc.type, hbc.name (hbc.kind ▸ hscope)]

theorem get?_push (t : TermTable) (kind : TermKind) (name declared : String) (type : PinType)
    (literal : Option String) (i : Nat) : (t.push kind name declared type literal).2.get? i =
      if i = t.terms.length then some ⟨t.terms.length, name, declared, type, kind, literal⟩
        else t.get? i := by
  rw [get?, push]
  by_cases hi : i = t.terms.length
  · simp [hi]
  · rw [if_neg hi, get?]
    by_cases hlt : i < t.terms.length
    · exact List.getElem?_append_left hlt
    · have hshort : (t.terms ++ [⟨t.terms.length, name, declared, type, kind, literal⟩] :
          List Term).length ≤ i := by
        rw [List.length_append, List.length_singleton]
        omega
      rw [List.getElem?_eq_none hshort, List.getElem?_eq_none (by omega)]

theorem ne_length {a : Term} (h : t.get? i = some a) : i ≠ t.terms.length :=
  Nat.ne_of_lt (List.getElem?_eq_some_iff.mp h).1

theorem Orderly.names (h : t.Orderly) {names : NameTable}
    (hnames : ∀ name, t.names.contains name = true → names.contains name = true)
    (literalCount : Nat) : Orderly { t with names, literalCount } :=
  ⟨h.ids, fun ha => hnames _ (h.taken ha), h.apart, h.slots⟩

theorem Orderly.push (h : t.Orderly) (kind : TermKind) (declared : String) (type : PinType)
    (literal : Option String) (htaken : t.names.contains name = true)
    (hfree : ∀ {i : TermId} {a : Term}, t.get? i = some a → a.name ≠ name) :
    (t.push kind name declared type literal).2.Orderly := by
  refine ⟨?_, ?_, ?_, ?_⟩
  · intro i a ha
    rw [get?_push] at ha
    split at ha
    · next hi => cases ha; exact hi.symm
    · exact h.ids ha
  · intro i a ha
    rw [get?_push] at ha
    split at ha
    · cases ha; exact htaken
    · exact h.taken ha
  · intro i j a b ha hb hab
    rw [get?_push] at ha hb
    split at ha <;> split at hb
    · next hi hj => exact hi.trans hj.symm
    · cases ha; exact absurd hab.symm (hfree hb)
    · cases hb; exact absurd hab (hfree ha)
    · exact h.apart ha hb hab
  · intro kind' name' i hscope hd
    obtain ⟨a, ha, hkind, hname⟩ := h.slots hscope hd
    exact ⟨a, by rw [get?_push, if_neg (ne_length ha)]; exact ha, hkind, hname⟩

theorem Keeps.push (t : TermTable) (declared : String)
    (literal : Option String) (h : kind.isClassScope = true → slots kind name type) :
    Keeps slots t (t.push kind name declared type literal).2 where
  old {i a} ha := ⟨a, by rw [get?_push, if_neg (ne_length ha)]; exact ha, .refl a⟩
  new {i b} hb hi hscope := by
    rw [get?_push] at hb
    split at hb
    · cases hb
      exact h hscope
    · cases hi.symm.trans hb

theorem get?_rename (t : TermTable) (id : TermId) (name : String) (i : TermId) :
    (t.rename id name).get? i = (t.get? i).map fun a => if id = i then { a with name } else a := by
  rw [get?, rename, List.getElem?_modify, get?]
  by_cases h : id = i
  · simp [h]
  · simp [h]

theorem Orderly.rename (h : t.Orderly) {id : TermId} {holder : Term} (hid : t.get? id = some holder)
    (hscope : holder.kind.isClassScope = false) (htaken : t.names.contains name = true)
    (hfree : ∀ {i : TermId} {a : Term}, t.get? i = some a → a.name ≠ name) :
    (t.rename id name).Orderly := by
  have hcases {i : TermId} {b : Term} (hb : (t.rename id name).get? i = some b) :
      (i = id ∧ b = { holder with name }) ∨ (i ≠ id ∧ t.get? i = some b) := by
    rw [get?_rename] at hb
    obtain ⟨a, ha, rfl⟩ := Option.map_eq_some_iff.mp hb
    by_cases hi : id = i
    · subst hi
      cases hid.symm.trans ha
      exact Or.inl ⟨rfl, if_pos rfl⟩
    · exact Or.inr ⟨fun he => hi he.symm, by rw [if_neg hi]; exact ha⟩
  refine ⟨?_, ?_, ?_, ?_⟩
  · intro i a ha
    rcases hcases ha with ⟨rfl, rfl⟩ | ⟨_, ha⟩
    · exact (h.ids hid : holder.id = i)
    · exact h.ids ha
  · intro i a ha
    rcases hcases ha with ⟨_, rfl⟩ | ⟨_, ha⟩
    · exact htaken
    · exact h.taken ha
  · intro i j a b ha hb hab
    rcases hcases ha with ⟨hi, he⟩ | ⟨_, ha⟩ <;> rcases hcases hb with ⟨hj, he'⟩ | ⟨_, hb⟩
    · exact hi.trans hj.symm
    · rw [he] at hab
      exact absurd hab.symm (hfree hb)
    · rw [he'] at hab
      exact absurd hab (hfree ha)
    · exact h.apart ha hb hab
  · intro kind name' i hclass hd
    obtain ⟨a, ha, hkind, hname⟩ := h.slots hclass hd
    have hne : id ≠ i := by
      rintro rfl
      cases hid.symm.trans ha
      rw [hkind, hclass] at hscope
      cases hscope
    exact ⟨a, by rw [get?_rename, ha, Option.map_some, if_neg hne], hkind, hname⟩

theorem Keeps.rename {id : TermId} {holder : Term} (hid : t.get? id = some holder)
    (hscope : holder.kind.isClassScope = false) : Keeps slots t (t.rename id name) where
  old {i a} ha := by
    refine ⟨_, by rw [get?_rename, ha, Option.map_some], ?_⟩
    by_cases hi : id = i
    · subst hi
      cases hid.symm.trans ha
      rw [if_pos rfl]
      refine ⟨rfl, rfl, rfl, fun hclass => ?_⟩
      rw [hclass] at hscope
      cases hscope
    · rw [if_neg hi]
      exact .refl a
  new {i b} hb hi := by
    rw [get?_rename, hi] at hb
    cases hb

theorem Orderly.declare (h : t.Orderly)
    (hi : kind.isClassScope = true → ∃ a, t.get? i = some a ∧ a.kind = kind ∧ a.name = name) :
    Orderly { t with declared := t.declared.insert (kind, name) i } := by
  refine ⟨h.ids, h.taken, h.apart, fun hscope hd => ?_⟩
  rw [OrderedMap.get?_insert] at hd
  split at hd
  · next he =>
      cases he
      cases hd
      exact hi hscope
  · exact h.slots hscope hd

theorem Orderly.bind (h : t.Orderly) (p : PortRef) (id : TermId) :
    (t.bind p id).Orderly := ⟨h.ids, h.taken, h.apart, h.slots⟩

theorem Orderly.fresh_free (h : t.Orderly) (declared : String) {a : Term} (ha : t.get? i = some a) :
    a.name ≠ (t.names.fresh declared).1 := by
  intro he
  have htaken := h.taken ha
  rw [he, NameTable.fresh_free] at htaken
  cases htaken

theorem Orderly.fresh (h : t.Orderly) (declared : String) (literalCount : Nat) :
    Orderly { t with names := (t.names.fresh declared).2, literalCount } :=
  h.names (fun _ hname => (NameTable.contains_fresh _ _ _).mpr (Or.inr hname)) literalCount

theorem contains_fresh_self (names : NameTable) (declared : String) :
    (names.fresh declared).2.contains (names.fresh declared).1 = true :=
  (NameTable.contains_fresh _ _ _).mpr (Or.inl rfl)

theorem Orderly.add (h : t.Orderly) (hscope : kind.isClassScope = false) (declared : String)
    (type : PinType) :
    (t.add kind declared type).2.Orderly := by
  have hpush := (h.fresh declared t.literalCount).push kind declared type none
    (contains_fresh_self _ _) (h.fresh_free declared)
  simp only [TermTable.add]
  unfold OrderedMap.insertIfNew
  split
  · exact hpush
  · refine hpush.declare fun hclass => ?_
    rw [hclass] at hscope
    cases hscope

theorem Keeps.add (t : TermTable) (hscope : kind.isClassScope = false) (declared : String)
    (type : PinType) :
    Keeps slots t (t.add kind declared type).2 := by
  have hnames : Keeps slots t { t with names := (t.names.fresh declared).2 } := .of_terms rfl
  refine (hnames.trans (.push _ declared none fun hclass => ?_)).trans (.of_terms rfl)
  rw [hclass] at hscope
  cases hscope

theorem Orderly.addLiteral (h : t.Orderly) (type : PinType) (value : String) :
    (t.addLiteral type value).2.Orderly :=
  (h.fresh _ _).push .literal _ type (some value) (contains_fresh_self _ _) (h.fresh_free _)

theorem Keeps.addLiteral (t : TermTable) (type : PinType) (value : String) :
    Keeps slots t (t.addLiteral type value).2 := by
  have hnames : Keeps slots t { t with
      names := (t.names.fresh ("Literal_" ++ toString t.literalCount)).2
      literalCount := t.literalCount + 1 } := .of_terms rfl
  exact hnames.trans (.push _ _ _ nofun)

/-- The terms are kept, and the name is taken though no term bears it. -/
structure Frees (slots : TermKind → String → PinType → Prop) (t : TermTable) (name : String)
    (u : TermTable) : Prop where
  orderly : u.Orderly
  keeps : Keeps slots t u
  nets : u.nets = t.nets
  taken : u.names.contains name = true
  free : ∀ {i : TermId} {a : Term}, u.get? i = some a → a.name ≠ name

theorem Orderly.reserve (h : t.Orderly) (hname : t.names.contains name = false) :
    Frees slots t name { t with names := t.names.insert name 0 } where
  orderly := h.names (fun other ho => (OrderedMap.contains_insert _ _ _ _).mpr (Or.inr ho)) _
  keeps := .of_terms rfl
  nets := rfl
  taken := (OrderedMap.contains_insert _ _ _ _).mpr (Or.inl rfl)
  free ha he := by
    have htaken := h.taken ha
    rw [he, hname] at htaken
    cases htaken

theorem Orderly.yield (h : t.Orderly) {holder : Term} (hid : t.get? holder.id = some holder)
    (hscope : holder.kind.isClassScope = false) :
    Frees slots t holder.name
      ({ t with names := (t.names.fresh holder.name).2 }.rename holder.id
        (t.names.fresh holder.name).1) where
  orderly := (h.fresh holder.name t.literalCount).rename hid hscope (contains_fresh_self _ _)
    (h.fresh_free _)
  keeps := by
    have hnames : Keeps slots t { t with names := (t.names.fresh holder.name).2 } := .of_terms rfl
    exact hnames.trans (.rename hid hscope)
  nets := rfl
  taken := (NameTable.contains_fresh _ _ _).mpr (Or.inr (h.taken hid))
  free {j b} hb he := by
    rw [get?_rename] at hb
    obtain ⟨a, ha, rfl⟩ := Option.map_eq_some_iff.mp hb
    by_cases hj : holder.id = j
    · rw [if_pos hj] at he
      exact h.fresh_free _ hid he.symm
    · rw [if_neg hj] at he
      exact hj (h.apart hid ha he.symm)

/-- A slot is the one that is declared, or it is declared behind all terms once its name is free. -/
theorem Orderly.member_cases (h : t.Orderly) (slots : TermKind → String → PinType → Prop)
    (hr : t.member kind name type = .ok r) :
    (t.declared.get? (kind, name) = some r.1 ∧ r.2 = t) ∨ ∃ u, Frees slots t name u ∧
      r = u.declareSlot kind name type := by
  unfold member at hr
  cases hk : t.declared.get? (kind, name) with
  | some id =>
      rw [hk] at hr
      cases hr
      exact Or.inl ⟨rfl, rfl⟩
  | none =>
      rw [hk] at hr
      refine Or.inr ?_
      simp only [NameTable.reserve?] at hr
      by_cases hname : t.names.contains name = true
      · rw [if_pos hname] at hr
        simp only at hr
        split at hr
        · next hnone =>
            cases hr
            refine ⟨t, ⟨h, .of_terms rfl, rfl, hname, fun ha he => ?_⟩, rfl⟩
            exact List.find?_eq_none.mp hnone _ (List.mem_of_getElem? ha) (decide_eq_true he)
        · next holder hholder =>
            split at hr
            · cases hr
            · next hscope =>
                cases hr
                obtain ⟨i, hi⟩ := List.mem_iff_getElem?.mp (List.mem_of_find?_eq_some hholder)
                have hid : t.get? holder.id = some holder := (h.ids hi).symm ▸ hi
                obtain rfl : holder.name = name := by simpa using List.find?_some hholder
                exact ⟨_, h.yield hid (Bool.eq_false_iff.mpr hscope), rfl⟩
      · rw [if_neg hname] at hr
        cases hr
        exact ⟨_, h.reserve (Bool.eq_false_iff.mpr hname), rfl⟩

theorem Orderly.member (h : t.Orderly) (hr : t.member kind name type = .ok r) : r.2.Orderly := by
  rcases h.member_cases (fun _ _ _ => True) hr with ⟨_, he⟩ | ⟨u, hu, rfl⟩
  · exact he ▸ h
  · refine (hu.orderly.push kind name type none hu.taken hu.free).declare fun _ => ?_
    exact ⟨_, (get?_push u kind name name type none _).trans (if_pos rfl), rfl, rfl⟩

theorem Keeps.member (h : t.Orderly)
    (hr : t.member kind name type = .ok r) (hslot : slots kind name type) : Keeps slots t r.2 := by
  rcases h.member_cases slots hr with ⟨_, he⟩ | ⟨u, hu, rfl⟩
  · exact he ▸ .of_terms rfl
  · exact (hu.keeps.trans (.push u name none fun _ => hslot)).trans (.of_terms rfl)

theorem member_nets (h : t.Orderly) (hr : t.member kind name type = .ok r) : r.2.nets = t.nets := by
  rcases h.member_cases (fun _ _ _ => True) hr with ⟨_, he⟩ | ⟨u, hu, rfl⟩
  · rw [he]
  · exact hu.nets

theorem get?_member (h : t.Orderly) (hscope : kind.isClassScope = true)
    (hr : t.member kind name type = .ok r) :
    ∃ a, r.2.get? r.1 = some a ∧ a.kind = kind ∧ a.name = name := by
  rcases h.member_cases (fun _ _ _ => True) hr with ⟨hd, he⟩ | ⟨u, _, rfl⟩
  · rw [he]
    exact h.slots hscope hd
  · exact ⟨_, (get?_push u kind name name type none _).trans (if_pos rfl), rfl, rfl⟩

/-- What a node may do to the table: add terms of the function, ask for slots of the class and bind its
ports. -/
inductive Change (sites : PortRef → Prop) (slots : TermKind → String → PinType → Prop) :
    TermTable → TermTable → Prop
  | add (t : TermTable) (kind : TermKind) (declared : String) (type : PinType)
      (h : kind.isClassScope = false) :
      Change sites slots t (t.add kind declared type).2
  | initial (t : TermTable) (initial : OrderedMap TermId String) : Change sites slots t { t with initial }
  | literal (t : TermTable) (type : PinType) (value : String) :
      Change sites slots t (t.addLiteral type value).2
  | slot (t : TermTable) (kind : TermKind) (name : String) (type : PinType) (r : TermId × TermTable)
      (h : slots kind name type) (hr : t.member kind name type = .ok r) : Change sites slots t r.2
  | bind (t : TermTable) (port : PortRef) (id : TermId) (h : sites port) :
      Change sites slots t (t.bind port id)

abbrev Changes (sites : PortRef → Prop) (slots : TermKind → String → PinType → Prop) :
    TermTable → TermTable → Prop :=
  Relation.ReflTransGen (Change sites slots)

theorem Change.orderly (h : Change sites slots t t') (ht : t.Orderly) : t'.Orderly := by
  cases h with
  | add kind declared type h => exact ht.add h declared type
  | initial => exact ⟨ht.ids, ht.taken, ht.apart, ht.slots⟩
  | bind port id => exact ht.bind port id
  | literal type value => exact ht.addLiteral type value
  | slot kind name type r _ hr => exact ht.member hr

theorem Change.keeps (h : Change sites slots t t') (ht : t.Orderly) : Keeps slots t t' := by
  cases h with
  | add kind declared type h => exact .add t h declared type
  | initial | bind => exact .of_terms rfl
  | literal type value => exact .addLiteral t type value
  | slot kind name type r h hr => exact .member ht hr h

theorem Change.net? (h : Change sites slots t t') (ht : t.Orderly) (hp : ¬ sites p) :
    t'.net? p = t.net? p := by
  cases h with
  | add | initial | literal => rfl
  | slot kind name type r _ hr => rw [TermTable.net?, member_nets ht hr, TermTable.net?]
  | bind port id h =>
      refine OrderedMap.get?_insert_of_ne _ _ ?_
      rintro rfl
      exact hp h

theorem Change.mono {sites' : PortRef → Prop} {slots' : TermKind → String → PinType → Prop}
    (h : Change sites slots t t') (hsites : ∀ p, sites p → sites' p)
    (hslots : ∀ kind name type, slots kind name type → slots' kind name type) :
    Change sites' slots' t t' := by
  cases h with
  | add kind declared type h => exact .add t kind declared type h
  | initial initial => exact .initial t initial
  | literal type value => exact .literal t type value
  | slot kind name type r h hr => exact .slot t kind name type r (hslots _ _ _ h) hr
  | bind port id h => exact .bind t port id (hsites _ h)

theorem Changes.orderly (h : Changes sites slots t t') (ht : t.Orderly) : t'.Orderly := by
  induction h with
  | refl => exact ht
  | tail _ h ih => exact h.orderly ih

theorem Changes.keeps (h : Changes sites slots t t') (ht : t.Orderly) : Keeps slots t t' := by
  induction h with
  | refl => exact .of_terms rfl
  | tail hs h ih => exact ih.trans (h.keeps (Changes.orderly hs ht))

theorem Changes.net? (h : Changes sites slots t t') (ht : t.Orderly) (hp : ¬ sites p) :
    t'.net? p = t.net? p := by
  induction h with
  | refl => rfl
  | tail hs h ih => exact (h.net? (Changes.orderly hs ht) hp).trans ih

theorem Changes.mono {sites' : PortRef → Prop} {slots' : TermKind → String → PinType → Prop}
    (h : Changes sites slots t t') (hsites : ∀ p, sites p → sites' p)
    (hslots : ∀ kind name type, slots kind name type → slots' kind name type) :
    Changes sites' slots' t t' := by
  induction h with
  | refl => exact .refl
  | tail _ h ih => exact ih.tail (h.mono hsites hslots)

def Binds (t : TermTable) (p : PortRef) (Q : Term → Prop) : Prop :=
  ∃ i a, t.net? p = some i ∧ t.get? i = some a ∧ Q a

theorem Binds.changes {Q : Term → Prop} (h : t.Binds p Q) (hQ : ∀ a b, a.Alike b → Q a → Q b)
    (ht : t.Orderly) (hs : Changes sites slots t t') (hp : ¬ sites p) : t'.Binds p Q := by
  obtain ⟨i, a, hi, ha, hq⟩ := h
  obtain ⟨b, hb, hab⟩ := (Changes.keeps hs ht).old ha
  exact ⟨i, b, (Changes.net? hs ht hp).trans hi, hb, hQ a b hab hq⟩

end TermTable

end VisualScript
