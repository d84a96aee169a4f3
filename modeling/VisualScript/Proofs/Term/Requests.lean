import VisualScript.Proofs.Term.Declarations

namespace VisualScript

namespace TermTable

variable {t t' t'' : TermTable} {kind : TermKind} {name : String} {type : PinType}

/-- Takes a name as it is, and tells whether it was free. -/
def reserve (name : String) : StateM TermTable Bool := do
  if (← get).names.contains name then return false
  modify fun t => { t with names := t.names.insert name 0 }
  return true

/-- Makes sure that no term bears a name, unless a slot does. -/
def clear (name : String) : StateM TermTable (Option NameClash) := do
  if ← reserve name then return none
  match (← get).terms.find? fun term => term.name = name with
  | none => return none
  | some holder =>
      if holder.kind.isClassScope then return some ⟨name, holder.kind⟩
      let other ← modifyGet fun t => let (other, names) := t.names.fresh name; (other, { t with names })
      modify fun t => t.rename holder.id other
      return none

/-- Asks for a slot and edits the table in place. -/
def slot (kind : TermKind) (name : String) (type : PinType) :
    StateM TermTable (Except NameClash TermId) := do
  match (← get).declared.get? (kind, name) with
  | some id => return .ok id
  | none =>
      match ← clear name with
      | some clash => return .error clash
      | none =>
          let id ← modifyGet fun t => t.push kind name name type
          modify fun t => { t with declared := t.declared.insert (kind, name) id }
          return .ok id

/-- The answer of a table and what has become of it. -/
def outcome (t : TermTable) : Except NameClash (TermId × TermTable) → Except NameClash TermId × TermTable
  | .ok r => (.ok r.1, r.2)
  | .error clash => (.error clash, t)

/-- The edits of a slot come to the table that `member` gives, and to none at all if it gives none. -/
theorem slot_eq_outcome (t : TermTable) (kind : TermKind) (name : String) (type : PinType) :
    (slot kind name type).run t = t.outcome (t.member kind name type) := by
  unfold member
  cases hk : t.declared.get? (kind, name) with
  | some id =>
      simp only [slot, StateT.run_bind, StateT.run_get, pure_bind, hk]
      rfl
  | none =>
      simp only [slot, clear, reserve, StateT.run_bind, StateT.run_get, pure_bind, hk, NameTable.reserve?]
      cases hname : t.names.contains name with
      | false => rfl
      | true =>
          simp only [if_true, StateT.run_pure, pure_bind, Bool.false_eq_true, if_false,
            StateT.run_bind, StateT.run_get]
          cases t.terms.find? fun term => term.name = name with
          | none => rfl
          | some holder =>
              cases hscope : holder.kind.isClassScope with
              | true =>
                  simp only [hscope, if_true]
                  rfl
              | false =>
                  simp only [hscope, Bool.false_eq_true, if_false]
                  rfl

/-- Something that is asked of a table. Slots are asked for under the kinds of the class only. -/
inductive Request where
  | add (kind : TermKind) (declared : String) (type : PinType)
  | addLocal (declared : String) (type : PinType) (initial : Option String)
  | addLiteral (type : PinType) (value : String)
  | slot (kind : TermKind) (scope : kind.isClassScope = true) (name : String) (type : PinType)
  | bind (port : PortRef) (id : TermId)

def serve (t : TermTable) : Request → TermTable
  | .add kind declared type => (t.add kind declared type).2
  | .addLocal declared type initial => (t.addLocal declared type initial).2
  | .addLiteral type value => (t.addLiteral type value).2
  | .slot kind _ name type => ((TermTable.slot kind name type).run t).2
  | .bind port id => t.bind port id

def serveAll (t : TermTable) (requests : List Request) : TermTable := requests.foldl serve t

theorem serve_slot_cases (t : TermTable) (kind : TermKind) (scope : kind.isClassScope = true)
    (name : String) (type : PinType) :
    t.serve (.slot kind scope name type) = t ∨
      ∃ r, t.member kind name type = .ok r ∧ t.serve (.slot kind scope name type) = r.2 := by
  rw [serve, slot_eq_outcome]
  cases hr : t.member kind name type with
  | error clash => exact Or.inl rfl
  | ok r => exact Or.inr ⟨r, rfl, rfl⟩

def Named (t : TermTable) : Prop := Orderly { t with declared := ∅ }

theorem named_empty : Named {} := orderly_empty

theorem Orderly.named (h : t.Orderly) : t.Named :=
  ⟨h.ids, h.taken, h.apart, fun _ hd => absurd hd (Option.some_ne_none _).symm⟩

theorem Named.nodup (h : t.Named) : (t.terms.map Term.name).Nodup := by
  rw [List.Nodup, List.pairwise_map, List.pairwise_iff_getElem]
  intro i j hi hj hij he
  exact absurd (h.apart (List.getElem?_eq_getElem hi) (List.getElem?_eq_getElem hj) he) (Nat.ne_of_lt hij)

theorem member_of_new (h : t.find? kind name = none) : t.member kind name type =
    (TermTable.member { t with declared := ∅ } kind name type).map fun r =>
      (r.1, { r.2 with declared := t.declared.insert (kind, name) r.1 }) := by
  have hnone : t.declared.get? (kind, name) = none := h
  have hempty : (∅ : OrderedMap (TermKind × String) TermId).get? (kind, name) = none := rfl
  simp only [member, hnone, hempty]
  split
  · rfl
  · split
    · rfl
    · split <;> rfl

theorem Named.member {r : TermId × TermTable} (h : t.Named) (hr : t.member kind name type = .ok r) :
    r.2.Named ∧ Keeps (fun _ _ _ => True) t r.2 := by
  rcases member_cases hr with ⟨_, he⟩ | ⟨hnone, _⟩
  · rw [he]
    exact ⟨h, .of_terms rfl⟩
  · rw [member_of_new hnone] at hr
    cases hbare : TermTable.member { t with declared := ∅ } kind name type with
    | error clash =>
        rw [hbare] at hr
        cases hr
    | ok r' =>
        rw [hbare] at hr
        cases hr
        have hkeeps : Keeps (fun _ _ _ => True) { t with declared := ∅ } r'.2 := .member h hbare trivial
        exact ⟨(Orderly.member h hbare).named, hkeeps.old, hkeeps.new⟩

theorem Named.add (h : t.Named) (kind : TermKind) (declared : String) (type : PinType) :
    (t.add kind declared type).2.Named ∧ Keeps (fun _ _ _ => True) t (t.add kind declared type).2 := by
  have hnames : Keeps (fun _ _ _ => True) t { t with names := (t.names.fresh declared).2 } := .of_terms rfl
  refine ⟨?_, (hnames.trans (.push _ declared none fun _ => trivial)).trans (.of_terms rfl)⟩
  exact (Orderly.fresh h declared t.literalCount).push kind declared type none
    (contains_fresh_self _ _) (Orderly.fresh_free h declared)

theorem Named.serve (h : t.Named) (q : Request) :
    (t.serve q).Named ∧ Keeps (fun _ _ _ => True) t (t.serve q) := by
  cases q with
  | add kind declared type => exact h.add kind declared type
  | addLocal declared type initial =>
      obtain ⟨hnamed, hkeeps⟩ := h.add .local declared type
      rw [TermTable.serve, addLocal]
      cases initial with
      | none => exact ⟨hnamed, hkeeps⟩
      | some value =>
          exact ⟨⟨hnamed.ids, hnamed.taken, hnamed.apart, hnamed.slots⟩,
            hkeeps.trans (.of_terms rfl)⟩
  | addLiteral type value => exact ⟨Orderly.addLiteral h type value, .addLiteral t type value⟩
  | slot kind scope name type =>
      rcases t.serve_slot_cases kind scope name type with he | ⟨r, hr, he⟩
      · rw [he]
        exact ⟨h, .of_terms rfl⟩
      · rw [he]
        exact h.member hr
  | bind port id => exact ⟨Orderly.bind h port id, .of_terms rfl⟩

theorem Named.serveAll (h : t.Named) (requests : List Request) :
    (t.serveAll requests).Named ∧ Keeps (fun _ _ _ => True) t (t.serveAll requests) := by
  induction requests generalizing t with
  | nil => exact ⟨h, .of_terms rfl⟩
  | cons q rest ih =>
      obtain ⟨hnamed, hkeeps⟩ := h.serve q
      obtain ⟨hrest, hkeeps'⟩ := ih hnamed
      exact ⟨hrest, hkeeps.trans hkeeps'⟩

def bare (t : TermTable) : List Term := t.terms.map fun a => { a with name := "" }

theorem Renamed.bare (h : t.Renamed t') : t'.bare = t.bare := h.map_terms fun _ _ => rfl

/-- A request adds one term at most, behind the others. -/
theorem bare_serve (t : TermTable) (q : Request) :
    (t.serve q).bare = t.bare ∨ ∃ a, (t.serve q).bare = t.bare ++ [a] := by
  have hpush (t : TermTable) (kind : TermKind) (name declared : String) (type : PinType)
      (literal : Option String) :
      ∃ a, (t.push kind name declared type literal).2.bare = t.bare ++ [a] := ⟨_, List.map_append⟩
  cases q with
  | add kind declared type => exact Or.inr (hpush _ _ _ _ _ _)
  | addLocal declared type initial =>
      rw [serve, addLocal]
      cases initial <;> exact Or.inr (hpush _ _ _ _ _ _)
  | addLiteral type value => exact Or.inr (hpush _ _ _ _ _ _)
  | slot kind scope name type =>
      rcases t.serve_slot_cases kind scope name type with he | ⟨r, hr, he⟩
      · exact Or.inl (congrArg TermTable.bare he)
      · rw [he]
        rcases member_cases hr with ⟨_, he⟩ | ⟨_, u, hu, rfl⟩
        · exact Or.inl (congrArg TermTable.bare he)
        · exact Or.inr (hu.bare ▸ hpush u kind name name type none)
  | bind => exact Or.inl rfl

theorem bare_serveAll (t : TermTable) (requests : List Request) :
    ∃ more, (t.serveAll requests).bare = t.bare ++ more ∧ more.length ≤ requests.length := by
  induction requests generalizing t with
  | nil => exact ⟨[], (List.append_nil _).symm, Nat.le_refl 0⟩
  | cons q rest ih =>
      obtain ⟨more, hmore, hlength⟩ := ih (t.serve q)
      have hrest : (t.serveAll (q :: rest)).bare = (t.serve q).bare ++ more := hmore
      rcases t.bare_serve q with he | ⟨a, he⟩
      · exact ⟨more, by rw [hrest, he], Nat.le_succ_of_le hlength⟩
      · exact ⟨a :: more, by
          rw [hrest, he, List.append_assoc, List.singleton_append], Nat.succ_le_succ hlength⟩

theorem length_serveAll (t : TermTable) (requests : List Request) :
    (t.serveAll requests).terms.length ≤ t.terms.length + requests.length := by
  obtain ⟨more, hbare, hmore⟩ := t.bare_serveAll requests
  have hlength := congrArg List.length hbare
  rw [bare, bare, List.length_append, List.length_map, List.length_map] at hlength
  omega

theorem get?_of_bare {i : TermId} {a : Term} (h : t.bare <+: t'.bare) (ha : t.get? i = some a) :
    ∃ name, t'.get? i = some { a with name } := by
  have hbare : t.bare[i]? = some { a with name := "" } := by
    rw [bare, List.getElem?_map]
    exact congrArg (Option.map _) ha
  obtain ⟨rest, hrest⟩ := h
  have hbare' : t'.bare[i]? = some { a with name := "" } := by
    rw [← hrest, List.getElem?_append_left (List.getElem?_eq_some_iff.mp hbare).1, hbare]
  rw [bare, List.getElem?_map, Option.map_eq_some_iff] at hbare'
  obtain ⟨b, hb, he⟩ := hbare'
  refine ⟨b.name, ?_⟩
  rw [get?, hb]
  cases a
  cases b
  simpa using he

theorem member_of_find? {id : TermId} (h : t.find? kind name = some id) (type : PinType) :
    t.member kind name type = .ok (id, t) := by
  have hd : t.declared.get? (kind, name) = some id := h
  rw [member, hd]

theorem get?_insert_of_new {k k' : TermKind × String} {id i : TermId}
    {m : OrderedMap (TermKind × String) TermId} (hk : m.get? k = none) (h : m.get? k' = some i) :
    (m.insert k id).get? k' = some i := by
  rw [OrderedMap.get?_insert_of_ne _ _ fun he => ?_, h]
  rw [he, hk] at h
  cases h

theorem find?_add (t : TermTable) (kind : TermKind) (declared : String) (type : PinType)
    {kind' : TermKind} {i : TermId} (h : t.find? kind' name = some i) :
    (t.add kind declared type).2.find? kind' name = some i := by
  have hfind : (t.add kind declared type).2.find? kind' name =
      (t.declared.insertIfNew (kind, declared) t.terms.length).get? (kind', name) := rfl
  rw [hfind, OrderedMap.insertIfNew]
  split
  · exact h
  · next hnew =>
      rw [OrderedMap.contains_eq_isSome, Option.not_isSome_iff_eq_none] at hnew
      exact get?_insert_of_new hnew h

theorem find?_serve (t : TermTable) (q : Request) {i : TermId} (h : t.find? kind name = some i) :
    (t.serve q).find? kind name = some i := by
  cases q with
  | add kind' declared type => exact t.find?_add kind' declared type h
  | addLocal declared type initial =>
      rw [serve, addLocal]
      cases initial <;> exact t.find?_add .local declared type h
  | addLiteral | bind => exact h
  | slot kind' scope name' type =>
      rcases t.serve_slot_cases kind' scope name' type with he | ⟨r, hr, he⟩
      · rw [he]
        exact h
      · rw [he]
        rcases member_cases hr with ⟨_, he⟩ | ⟨hnone, u, hu, rfl⟩
        · rw [he]
          exact h
        · have hfind : (u.declareSlot kind' name' type).2.find? kind name =
              (u.declared.insert (kind', name') u.terms.length).get? (kind, name) := rfl
          rw [hfind, hu.declared]
          exact get?_insert_of_new hnone h

theorem find?_serveAll (t : TermTable) (requests : List Request) {i : TermId}
    (h : t.find? kind name = some i) :
    (t.serveAll requests).find? kind name = some i := by
  induction requests generalizing t with
  | nil => exact h
  | cons q rest ih => exact ih (t.serve q) (t.find?_serve q h)

theorem get?_of_new {r : TermId × TermTable} (hr : t.member kind name type = .ok r)
    (hnew : t.find? kind name = none) :
    t.get? r.1 = none ∧ r.2.get? r.1 = some ⟨r.1, name, name, type, kind, none⟩ := by
  rcases member_cases hr with ⟨hd, _⟩ | ⟨_, u, hu, rfl⟩
  · exact absurd (hnew.symm.trans hd) (Option.some_ne_none r.1).symm
  · exact ⟨List.getElem?_eq_none (Nat.le_of_eq hu.length.symm),
      (get?_push u kind name name type none _).trans (if_pos rfl)⟩

/-- Whatever was asked of an empty table, the names of its terms are all different, and whatever is asked
of it from then on, its terms remain but for the names of those that are no slots, and so do its answers.
A slot that cannot be had leaves no trace. Up to 4294967296 requests, no id needs more than its 32 bits. -/
theorem serveAll_lasts (past future : List Request) :
    let t := serveAll {} past
    (t.terms.map Term.name).Nodup ∧
    (past.length + future.length ≤ 4294967296 → ∀ a ∈ (t.serveAll future).terms, a.id < 4294967296) ∧
    (∀ {i : TermId} {a : Term}, t.get? i = some a → a.id = i ∧ ∃ name,
      (t.serveAll future).get? i = some { a with name }) ∧
    (∀ {kind : TermKind} {name : String} {i : TermId}, t.find? kind name = some i →
      (t.serveAll future).find? kind name = some i) ∧
    (∀ {kind : TermKind} {name : String} {type : PinType} {id : TermId} {t' : TermTable},
      kind.isClassScope = true →
      t.member kind name type = .ok (id, t') →
        (t.find? kind name = none → t.get? id = none ∧ ∃ a, (t'.serveAll future).get? id = some a ∧
          a.name = name) ∧
        ∀ type', (t'.serveAll future).member kind name type' = .ok (id, t'.serveAll future)) ∧
    ∀ {kind : TermKind} {name : String} {type : PinType} {clash : NameClash} {t' : TermTable},
      (slot kind name type).run t = (.error clash, t') → t' = t := by
  intro t
  have hnamed : t.Named := (named_empty.serveAll past).1
  have hprefix : t.bare <+: (t.serveAll future).bare := (t.bare_serveAll future).imp fun _ h => h.1.symm
  refine ⟨hnamed.nodup, fun hfew a ha => ?_, fun ha => ⟨hnamed.ids ha, get?_of_bare hprefix ha⟩,
    t.find?_serveAll future, ?_, ?_⟩
  · have hid : a.id < (t.serveAll future).terms.length := (hnamed.serveAll future).1.placed.id_lt ha
    have hpast : t.terms.length ≤ 0 + past.length := length_serveAll {} past
    have hfuture := t.length_serveAll future
    exact Nat.lt_of_lt_of_le hid (by omega)
  · intro kind name type id t' hscope hr
    refine ⟨fun hnew => ?_,
      fun type' => member_of_find? (t'.find?_serveAll future (find?_member hr)) type'⟩
    obtain ⟨hnone, hslot⟩ := get?_of_new hr hnew
    obtain ⟨b, hb, halike⟩ := ((hnamed.member hr).1.serveAll future).2.old hslot
    exact ⟨hnone, b, hb, halike.name hscope⟩
  · intro kind name type clash t' hslot
    rw [slot_eq_outcome] at hslot
    cases hr : t.member kind name type with
    | ok r =>
        rw [hr] at hslot
        cases hslot
    | error clash' =>
        rw [hr] at hslot
        exact (congrArg Prod.snd hslot).symm

def health : TermTable := serveAll {} [.addLocal "Health" ⟨.int, .single⟩ (some "5")]

/-- The slot takes the name of the local over and keeps it from the next one. -/
theorem health_lasts : ∃ t, health.member .member "Health" ⟨.int, .single⟩ = .ok (1, t) ∧
    t.terms.map Term.name = ["Health_1", "Health"] ∧
    (∃ a, (t.serveAll [.add .local "Health" ⟨.int, .single⟩]).get? 1 = some a ∧ a.name = "Health") ∧
    (t.serveAll [.add .local "Health" ⟨.int, .single⟩]).member .member "Health" ⟨.int, .single⟩ =
      .ok (1, t.serveAll [.add .local "Health" ⟨.int, .single⟩]) := by
  obtain ⟨t, hr, hnames⟩ : ∃ t, health.member .member "Health" ⟨.int, .single⟩ = .ok (1, t) ∧
      t.terms.map Term.name = ["Health_1", "Health"] := ⟨_, rfl, by decide +kernel⟩
  obtain ⟨_, _, _, _, hslot, _⟩ :=
    serveAll_lasts [.addLocal "Health" ⟨.int, .single⟩ (some "5")] [.add .local "Health" ⟨.int, .single⟩]
  obtain ⟨hnew, hsame⟩ := hslot rfl hr
  exact ⟨t, hr, hnames, (hnew rfl).2, hsame _⟩

end TermTable

end VisualScript
