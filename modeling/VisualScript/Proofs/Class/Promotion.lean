import VisualScript.Class.Layout
import VisualScript.Proofs.Term.Changes

namespace VisualScript

namespace SymbolTable

variable {t : TermTable} {i : TermId} {promoteLocals : Bool} {a : Term}

theorem get?_addTerm_of_ne (t : TermTable) (promoteLocals : Bool) (s : SymbolTable) {term : Term}
    (h : i ≠ term.id) :
    (addTerm t promoteLocals s term).symbols.get? i = s.symbols.get? i := by
  cases hp : isParameter term with
  | true => rw [addTerm_of_parameter hp]
  | false => rw [symbols_addTerm hp, OrderedMap.get?_insert_of_ne _ _ h]

def isSlotted (promoteLocals : Bool) (term : Term) : Bool := term.kind = .local && !promoteLocals

theorem locals_foldl_addTerm (t : TermTable) (promoteLocals : Bool) (l : List Term) (s : SymbolTable) :
    (l.foldl (addTerm t promoteLocals) s).locals = s.locals ++
      (l.filter (isSlotted promoteLocals)).map Term.id := by
  induction l generalizing s with
  | nil => simp
  | cons a rest ih =>
      have hstep : (addTerm t promoteLocals s a).locals = s.locals ++
          ([a].filter (isSlotted promoteLocals)).map Term.id := by
        unfold addTerm
        cases hk : a.kind <;> cases promoteLocals <;> simp [isSlotted, hk, addSymbol]
      rw [List.foldl_cons, ih, hstep, List.append_assoc, ← List.map_append, ← List.filter_append,
        List.singleton_append]

theorem ofTerms_eq (t : TermTable) (signature : Signature) :
    ∃ symbols, ∀ promoteLocals, ofTerms t signature promoteLocals =
    t.terms.foldl (addTerm t promoteLocals) { symbols, parameters := parameterTerms t signature } := by
  have hparameters : ∃ symbols, (parameterTerms t signature).zipIdx.foldl (addParameter t)
    { parameters := parameterTerms t signature } =
      { symbols, parameters := parameterTerms t signature } := by
    refine List.foldlRecOn (motive := fun s : SymbolTable => ∃ symbols,
      s = { symbols, parameters := _ }) _ _ ⟨∅, rfl⟩ fun s hs p _ => ?_
    obtain ⟨symbols, rfl⟩ := hs
    rw [addParameter]
    split
    · exact ⟨symbols, rfl⟩
    · exact ⟨_, rfl⟩
  obtain ⟨symbols, hsymbols⟩ := hparameters
  exact ⟨symbols, fun promoteLocals => congrArg (List.foldl (addTerm t promoteLocals) · t.terms) hsymbols⟩

theorem get?_foldl_addParameter {l : List (TermId × Nat)} (hi : i ∈ l.map Prod.fst)
    (ha : t.get? i = some a) (s : SymbolTable) :
    ∃ slot, (i, slot) ∈ l ∧ (l.foldl (addParameter t) s).symbols.get? i =
      some ⟨i, a.name, a.type, .parameter slot⟩ := by
  induction l using List.reverseRecOn with
  | nil => cases hi
  | append_singleton l p ih =>
      rw [List.foldl_append, List.foldl_cons, List.foldl_nil]
      by_cases hp : p.1 = i
      · subst hp
        refine ⟨p.2, List.mem_append_right _ (List.mem_singleton_self p), ?_⟩
        rw [addParameter, ha, OrderedMap.get?_insert, if_pos rfl]
      · have hbefore : i ∈ l.map Prod.fst := by simpa [Ne.symm hp] using hi
        obtain ⟨slot, hslot, hget⟩ := ih hbefore
        refine ⟨slot, List.mem_append_left _ hslot, ?_⟩
        rw [addParameter]
        split
        · exact hget
        · rw [OrderedMap.get?_insert_of_ne _ _ (Ne.symm hp)]
          exact hget

theorem get?_ofTerms_of_parameter (h : t.Placed) (signature : Signature) (promoteLocals : Bool)
    (ha : t.get? i = some a) (hp : isParameter a = true) :
    ∃ slot, (parameterTerms t signature)[slot]? = some i ∧
      (ofTerms t signature promoteLocals).symbols.get? i = some ⟨i, a.name, a.type, .parameter slot⟩ := by
  have hi : i ∈ (parameterTerms t signature).zipIdx.map Prod.fst := by
    rw [List.zipIdx_map_fst]
    exact mem_parameterTerms h signature ha hp
  obtain ⟨slot, hslot, hget⟩ := get?_foldl_addParameter hi ha { parameters := parameterTerms t signature }
  refine ⟨slot, List.mem_zipIdx_iff_getElem?.mp hslot, ?_⟩
  rw [ofTerms]
  refine List.foldlRecOn (motive := fun s : SymbolTable => s.symbols.get? i = _) _ _ hget
    fun s hs b hb => ?_
  by_cases hid : i = b.id
  · obtain ⟨j, hj⟩ := List.mem_iff_getElem?.mp hb
    have hsame : t.get? i = some b := by
      rw [hid, h j b hj]
      exact hj
    cases ha.symm.trans hsame
    rwa [addTerm_of_parameter hp]
  · rw [get?_addTerm_of_ne _ _ _ hid]
    exact hs

theorem get?_ofTerms_of_term (h : t.Placed) (signature : Signature) (promoteLocals : Bool)
    (ha : t.get? i = some a) (hp : isParameter a = false) :
    (ofTerms t signature promoteLocals).symbols.get? i =
      some (symbolOf promoteLocals a ((t.terms.take i).filter (isSlotted promoteLocals)).length) := by
  obtain ⟨hi, hget⟩ := List.getElem?_eq_some_iff.mp ha
  have hlater (b : Term) (hb : b ∈ t.terms.drop (i + 1)) : i ≠ b.id := by
    obtain ⟨k, hk⟩ := List.mem_iff_getElem?.mp hb
    rw [List.getElem?_drop] at hk
    have hid : b.id = i + 1 + k := h _ _ hk
    exact hid ▸ Nat.ne_of_lt (Nat.lt_of_lt_of_le (Nat.lt_succ_self i) (Nat.le_add_right _ _))
  have hsplit : t.terms = t.terms.take i ++ a :: t.terms.drop (i + 1) := by
    rw [← hget, ← List.drop_eq_getElem_cons hi, List.take_append_drop]
  obtain ⟨symbols, hof⟩ := ofTerms_eq t signature
  rw [hof, congrArg (List.foldl _ _) hsplit, List.foldl_append, List.foldl_cons]
  refine List.foldlRecOn (motive := fun s : SymbolTable => s.symbols.get? i = _) _ _ ?_ fun s hs b hb => ?_
  · rw [symbols_addTerm hp, locals_foldl_addTerm, h i a ha, OrderedMap.get?_insert, if_pos rfl,
      List.nil_append, List.length_map]
  · rw [get?_addTerm_of_ne _ _ _ (hlater b hb)]
    exact hs

theorem get?_ofTerms (h : t.Placed) (signature : Signature) (promoteLocals : Bool)
    (ha : t.get? i = some a) {m : PromotedMember} (hm : promotion? t promoteLocals a = some m) :
    (ofTerms t signature promoteLocals).symbols.get? i = some ⟨i, m.name, m.type, .member m.name⟩ := by
  have hsymbol : isParameter a = false ∧ ∀ slot, symbolOf promoteLocals a slot =
      ⟨a.id, m.name, m.type, .member m.name⟩ := by
    unfold promotion? at hm
    unfold isParameter symbolOf
    cases hk : a.kind <;> simp only [hk] at hm ⊢
    case «local» =>
      split at hm
      · next hpromote =>
          cases hm
          exact ⟨rfl, fun _ => if_pos hpromote⟩
      · cases hm
    case persistentFrame =>
      cases hm
      exact ⟨rfl, fun _ => rfl⟩
    all_goals cases hm
  rw [get?_ofTerms_of_term h signature promoteLocals ha hsymbol.1, hsymbol.2, h i a ha]

theorem storage_of_local (h : t.Placed) (signature : Signature)
    (ha : t.get? i = some a) (hk : a.kind = .local) : (ofTerms t signature false).symbols.get? i =
      some ⟨i, a.name, a.type, .local ((t.terms.take i).filter (isSlotted false)).length⟩ := by
  rw [get?_ofTerms_of_term h signature false ha (by simp [isParameter, hk]), symbolOf, hk, h i a ha]
  rfl

theorem find?_foldl_promote (name : String) (requests members : List PromotedMember) :
    (requests.foldl promote members).find? (fun m => m.name = name) =
      (members ++ requests).find? fun m => m.name = name := by
  induction requests generalizing members with
  | nil => rw [List.foldl_nil, List.append_nil]
  | cons r rest ih =>
      rw [List.foldl_cons, ih, promote]
      split
      · next hknown =>
          obtain ⟨m, hm, he⟩ := List.any_eq_true.mp hknown
          rw [List.find?_append, List.find?_append, List.find?_cons]
          by_cases hr : r.name = name
          · have hfound : (members.find? fun m => m.name = name).isSome = true :=
              List.find?_isSome.mpr ⟨m, hm, decide_eq_true ((of_decide_eq_true he).trans hr)⟩
            obtain ⟨m', hm'⟩ := Option.isSome_iff_exists.mp hfound
            rw [hm', Option.some_or, Option.some_or]
          · simp [hr]
      · rw [List.append_assoc]
        rfl

end SymbolTable

namespace Schema

variable {s : Schema}

def Named (s : Schema) : Prop := ∀ name m, s.members.get? name = some m → m.name = name

theorem Named.insert (h : s.Named) (m : MemberDecl) (renamed : OrderedMap String String) :
    Named { s with members := s.members.insert m.name m, renamed } := by
  intro name m' hm'
  rw [OrderedMap.get?_insert] at hm'
  split at hm'
  · next he =>
      cases hm'
      exact he.symm
  · exact h name m' hm'

theorem Named.addMember (h : s.Named) (callables : List String) (m : MemberDecl) :
    (addMember callables s m).1.Named := by
  simp only [Schema.addMember]
  split
  · exact h.insert { m with name := freeName (callables ++ s.members.keys) m.name } _
  · exact h.insert m _

theorem Named.addMembers (h : s.Named) (callables : List String) (members : List MemberDecl) :
    (addMembers callables s members).1.Named := by
  induction members generalizing s with
  | nil => exact h
  | cons m rest ih => exact ih (h.addMember callables m)

theorem ofUnit_named (u : CompilationUnit) : (ofUnit u).1.Named := by
  simp only [ofUnit]
  refine Named.addMembers ?_ _ _
  intro name m hm
  cases hm

end Schema

namespace ClassLayout

theorem get?_ofSchema {s : Schema} (h : s.Named) (u : CompilationUnit) (name : String) :
    (ofSchema u s).members.get? name = (s.members.get? name).map slotOf := by
  have hnames : (s.members.values.map fun m => (m.name, slotOf m)).map Prod.fst = s.members.keys := by
    rw [List.map_map]
    exact OrderedMap.map_values h
  have hnodup : ((s.members.values.map fun m => (m.name, slotOf m)).map Prod.fst).Nodup := by
    rw [hnames]
    exact s.members.nodup
  apply Option.ext
  intro slot
  rw [ofSchema, OrderedMap.get?_ofList _ hnodup, Option.map_eq_some_iff, List.mem_map]
  constructor
  · rintro ⟨m, hm, he⟩
    obtain ⟨name', hget⟩ := OrderedMap.mem_values.mp hm
    cases he
    exact ⟨m, (h name' m hget).symm ▸ hget, rfl⟩
  · rintro ⟨m, hget, rfl⟩
    exact ⟨m, OrderedMap.mem_values.mpr ⟨name, hget⟩, by rw [h name m hget]⟩

theorem get?_addPromoted (l : ClassLayout) (promoted : List PromotedMember) (name : String) :
    (l.addPromoted promoted).members.get? name = (l.members.get? name).or
      ((promoted.find? fun m => m.name = name).map fun m => ⟨m.name, m.type, .persistentFrame,
        m.default⟩) := by
  have hrun (members : OrderedMap String MemberSlot) : (promoted.foldl (fun members m =>
        members.insertIfNew m.name ⟨m.name, m.type, .persistentFrame, m.default⟩) members).get?
          name = (members.get? name).or
      ((promoted.find? fun m => m.name = name).map fun m => ⟨m.name, m.type, .persistentFrame,
        m.default⟩) := by
    induction promoted generalizing members with
    | nil => rw [List.foldl_nil, List.find?_nil, Option.map_none, Option.or_none]
    | cons m rest ih =>
        rw [List.foldl_cons, ih, OrderedMap.insertIfNew, List.find?_cons, OrderedMap.contains_eq_isSome]
        by_cases hm : m.name = name
        · subst hm
          cases hget : members.get? m.name with
          | none => simp [OrderedMap.get?_insert]
          | some v => simp [hget]
        · have hne : name ≠ m.name := fun he => hm he.symm
          cases members.get? m.name <;> simp [hm, OrderedMap.get?_insert_of_ne _ _ hne]
  exact hrun l.members

end ClassLayout

end VisualScript
