import VisualScript.Proofs.Class.Promotion
import VisualScript.Proofs.Term.Requests

namespace VisualScript

namespace TermTable

/-- A table that its operations lead to. What cannot be had leaves it as it is. -/
inductive Built : TermTable → Prop
  | empty : Built {}
  | add {t : TermTable} (h : Built t) (kind : TermKind) (declared : String) (type : PinType) :
      Built (t.add kind declared type).2
  | addLocal {t : TermTable} (h : Built t) (declared : String) (type : PinType) (initial : Option String) :
      Built (t.addLocal declared type initial).2
  | addLiteral {t : TermTable} (h : Built t) (type : PinType) (value : String) :
      Built (t.addLiteral type value).2
  | member {t : TermTable} (h : Built t) (kind : TermKind) (name : String) (type : PinType)
      {r : TermId × TermTable}
      (hr : t.member kind name type = .ok r) : Built r.2
  | bind {t : TermTable} (h : Built t) (port : PortRef) (id : TermId) : Built (t.bind port id)

theorem Built.named {t : TermTable} (h : t.Built) : t.Named := by
  induction h with
  | empty => exact named_empty
  | add _ kind declared type ih => exact (ih.add kind declared type).1
  | addLocal _ declared type initial ih => exact (ih.serve (.addLocal declared type initial)).1
  | addLiteral _ type value ih => exact (ih.serve (.addLiteral type value)).1
  | member _ kind name type hr ih => exact (ih.member hr).1
  | bind _ port id ih => exact (ih.serve (.bind port id)).1

theorem Built.placed {t : TermTable} (h : t.Built) : t.Placed := h.named.placed

end TermTable

namespace SymbolTable

variable {t : TermTable} {signature : Signature} {promoteLocals : Bool} {i : TermId} {a : Term}

theorem symbolOf_own (promoteLocals : Bool) (a : Term) (slot : Nat) :
    (symbolOf promoteLocals a slot).term = a.id ∧ (symbolOf promoteLocals a slot).type = a.type := by
  unfold symbolOf
  cases a.kind <;> cases promoteLocals <;> exact ⟨rfl, rfl⟩

theorem get?_ofTerms_cases (h : t.Placed) {symbol : Symbol}
    (hsymbol : (ofTerms t signature promoteLocals).symbols.get? i = some symbol) :
    ∃ a slot, t.get? i = some a ∧
      (symbol = ⟨i, a.name, a.type, .parameter slot⟩ ∨ symbol = symbolOf promoteLocals a slot) := by
  have hlt : i < t.terms.length := by
    rw [← contains_ofTerms_iff h signature promoteLocals, OrderedMap.contains_eq_isSome, hsymbol]
    rfl
  have ha : t.get? i = some t.terms[i] := List.getElem?_eq_getElem hlt
  cases hp : isParameter t.terms[i] with
  | true =>
      obtain ⟨slot, _, hget⟩ := get?_ofTerms_of_parameter h signature promoteLocals ha hp
      exact ⟨_, slot, ha, Or.inl (Option.some.inj (hsymbol.symm.trans hget))⟩
  | false =>
      rw [get?_ofTerms_of_term h signature promoteLocals ha hp] at hsymbol
      exact ⟨_, _, ha, Or.inr (Option.some.inj hsymbol).symm⟩

theorem locals_ofTerms (t : TermTable) (signature : Signature) (promoteLocals : Bool) :
    (ofTerms t signature promoteLocals).locals =
      (t.terms.filter (isSlotted promoteLocals)).map Term.id := by
  obtain ⟨symbols, hof⟩ := ofTerms_eq t signature
  rw [hof, locals_foldl_addTerm, List.nil_append]

theorem isSlotted_false :
    isSlotted false = fun a => decide (a.kind = .local) := funext fun _ => Bool.and_true _

theorem locals_ofTerms_false (t : TermTable) (signature : Signature) :
    (ofTerms t signature false).locals = (t.ofKind .local).map Term.id := by
  rw [locals_ofTerms, isSlotted_false]
  rfl

theorem getElem?_of_filter {p : Term → Bool} {l : List Term} {slot : Nat}
    (h : (l.filter p)[slot]? = some a) :
    ∃ i, l[i]? = some a ∧ ((l.take i).filter p).length = slot := by
  induction l generalizing slot with
  | nil => cases h
  | cons b rest ih =>
      cases hb : p b with
      | false =>
          rw [List.filter_cons_of_neg (by simp [hb])] at h
          obtain ⟨i, hi, hslot⟩ := ih h
          exact ⟨i + 1, hi, by simpa [hb] using hslot⟩
      | true =>
          rw [List.filter_cons_of_pos hb] at h
          cases slot with
          | zero => exact ⟨0, h, rfl⟩
          | succ slot =>
              obtain ⟨i, hi, hslot⟩ := ih h
              exact ⟨i + 1, hi, by simpa [hb] using hslot⟩

def storage? (s : SymbolTable) (id : TermId) : Option Storage := (s.symbols.get? id).map Symbol.storage

theorem slot_of_local (h : t.Placed) (signature : Signature) {slot : Nat}
    (hslot : (ofTerms t signature false).locals[slot]? = some i) :
    (ofTerms t signature false).storage? i = some (.local slot) := by
  rw [locals_ofTerms, List.getElem?_map, Option.map_eq_some_iff] at hslot
  obtain ⟨a, ha, rfl⟩ := hslot
  have hk : a.kind = .local := by simpa [isSlotted] using (List.mem_filter.mp (List.mem_of_getElem? ha)).2
  obtain ⟨i, hi, rfl⟩ := getElem?_of_filter ha
  rw [storage?, h i a hi, storage_of_local h signature hi hk, Option.map_some]

def defaultOf? (t : TermTable) (promoteLocals : Bool) (a : Term) : Option (String × String) :=
  if isSlotted promoteLocals a then (t.initial? a.id).map (Prod.mk a.name) else none

theorem defaults_foldl_addTerm (t : TermTable) (promoteLocals : Bool) (l : List Term) (s : SymbolTable) :
    (l.foldl (addTerm t promoteLocals) s).defaults =
      (l.filterMap (defaultOf? t promoteLocals)).foldl (fun defaults e => defaults.insert e.1 e.2)
        s.defaults := by
  induction l generalizing s with
  | nil => rfl
  | cons a rest ih =>
      have hstep : (addTerm t promoteLocals s a).defaults =
          ([a].filterMap (defaultOf? t promoteLocals)).foldl
            (fun defaults e => defaults.insert e.1 e.2) s.defaults := by
        unfold addTerm
        cases hk : a.kind <;> cases promoteLocals <;> cases hi : t.initial? a.id <;>
          simp [defaultOf?, isSlotted, hk, hi, addSymbol]
      rw [List.foldl_cons, ih, hstep, ← List.foldl_append, ← List.filterMap_append, List.singleton_append]

theorem defaults_ofTerms (h : t.Named) (signature : Signature) (promoteLocals : Bool) :
    (ofTerms t signature promoteLocals).defaults.entries =
      t.terms.filterMap (defaultOf? t promoteLocals) := by
  obtain ⟨symbols, hof⟩ := ofTerms_eq t signature
  have hdefaults : (ofTerms t signature promoteLocals).defaults =
      .ofList (t.terms.filterMap (defaultOf? t promoteLocals)) := by
    rw [hof, defaults_foldl_addTerm]
    rfl
  have hname {a : Term} {e : String × String} (he : defaultOf? t promoteLocals a = some e) : e.1 =
      a.name := by
    rw [defaultOf?] at he
    split at he
    · obtain ⟨value, _, rfl⟩ := Option.map_eq_some_iff.mp he
      rfl
    · cases he
  rw [hdefaults, OrderedMap.entries_ofList]
  rw [List.Nodup, List.pairwise_map, List.pairwise_filterMap]
  refine (List.pairwise_map.mp h.nodup).imp fun hne e he e' he' => ?_
  rw [hname he, hname he']
  exact hne

/-- Every term has one symbol, of its own id and type. Locals are slots in the order they were
registered, each with its default, or members of the class, as are the values that outlive a call.
The ids of a table that is not too large have 32 bits. -/
structure Assembles (t : TermTable) (promoteLocals : Bool) (s : SymbolTable)
    (members : List PromotedMember) : Prop where
  keys : s.symbols.keys.Perm (t.terms.map Term.id)
  keys_lt : t.terms.length ≤ 4294967296 → ∀ id ∈ s.symbols.keys, id < 4294967296
  own : ∀ {id : TermId} {symbol : Symbol}, s.symbols.get? id = some symbol →
    symbol.term = id ∧ ∃ a, t.get? id = some a ∧ symbol.type = a.type
  locals : promoteLocals = false → s.locals = (t.ofKind .local).map Term.id
  slots : promoteLocals = false → ∀ {slot : Nat} {id : TermId}, s.locals[slot]? = some id →
    s.storage? id = some (.local slot)
  defaults : promoteLocals = false → s.defaults.entries = s.locals.filterMap fun id =>
    (s.symbols.get? id).bind fun symbol => (t.initial? id).map fun value => (symbol.name, value)
  slotless : promoteLocals = true → ∀ id slot, s.storage? id ≠ some (.local slot)
  promoted : promoteLocals = true → ∀ {id : TermId} {a : Term}, t.get? id = some a → a.kind = .local →
    ∃ m ∈ members, s.storage? id = some (.member m.name)
  literals : ∀ {id : TermId} {a : Term}, t.get? id = some a → a.kind = .literal →
    s.storage? id = some (.literal (a.literal.getD ""))
  frames : ∀ {id : TermId} {a : Term}, t.get? id = some a → a.kind = .persistentFrame →
    ∃ m ∈ members, s.storage? id = some (.member m.name)
  distinct : (members.map PromotedMember.name).Nodup

theorem keys_ofTerms (h : t.Placed) (signature : Signature) (promoteLocals : Bool) :
    (ofTerms t signature promoteLocals).symbols.keys.Perm (t.terms.map Term.id) := by
  rw [h.map_id]
  refine (List.perm_ext_iff_of_nodup (ofTerms t signature promoteLocals).symbols.nodup
    List.nodup_range).mpr fun i => ?_
  rw [List.mem_range, ← contains_ofTerms_iff h signature promoteLocals, OrderedMap.contains_iff_mem_keys]
  rfl

theorem nodup_promotedMembers (t : TermTable) (promoteLocals : Bool) :
    ((promotedMembers t promoteLocals).map PromotedMember.name).Nodup := by
  refine List.foldlRecOn (motive := fun l :
    List PromotedMember => (l.map PromotedMember.name).Nodup) _ _ List.nodup_nil fun l hl m _ => ?_
  rw [promote]
  split
  · exact hl
  · next hnew =>
      rw [List.map_append, List.map_singleton, List.nodup_append_comm, List.singleton_append]
      refine List.nodup_cons.mpr ⟨fun hm => hnew ?_, hl⟩
      obtain ⟨n, hn, he⟩ := List.mem_map.mp hm
      exact List.any_eq_true.mpr ⟨n, hn, decide_eq_true he⟩

theorem exists_promoted (ha : t.get? i = some a) {m : PromotedMember}
    (hm : promotion? t promoteLocals a = some m) :
    ∃ m' ∈ promotedMembers t promoteLocals, m'.name = m.name := by
  have hfound : ((promotedMembers t promoteLocals).find? fun m' => m'.name = m.name).isSome = true := by
    rw [promotedMembers, find?_foldl_promote, List.nil_append, List.find?_isSome]
    exact ⟨m, List.mem_filterMap.mpr ⟨a, List.mem_of_getElem? ha, hm⟩, decide_eq_true rfl⟩
  obtain ⟨m', hm'⟩ := Option.isSome_iff_exists.mp hfound
  exact ⟨m', List.mem_of_find?_eq_some hm', by simpa using List.find?_some hm'⟩

theorem storage_of_promotion (h : t.Placed) (signature : Signature) (ha : t.get? i = some a)
    {m : PromotedMember} (hm : promotion? t promoteLocals a = some m) :
    ∃ m' ∈ promotedMembers t promoteLocals, (ofTerms t signature promoteLocals).storage? i =
      some (.member m'.name) := by
  obtain ⟨m', hm', he⟩ := exists_promoted ha hm
  rw [storage?, get?_ofTerms h signature promoteLocals ha hm, ← he]
  exact ⟨m', hm', rfl⟩

theorem built_assembles (h : t.Built) (signature : Signature) (promoteLocals : Bool) :
    Assembles t promoteLocals (ofTerms t signature promoteLocals) (promotedMembers t promoteLocals) where
  keys := keys_ofTerms h.placed signature promoteLocals
  keys_lt hfew id hid := by
    obtain ⟨a, ha, rfl⟩ := List.mem_map.mp ((keys_ofTerms h.placed signature promoteLocals).mem_iff.mp hid)
    exact Nat.lt_of_lt_of_le (h.placed.id_lt ha) hfew
  own {id symbol} hsymbol := by
    obtain ⟨a, slot, ha, rfl | rfl⟩ := get?_ofTerms_cases h.placed hsymbol
    · exact ⟨rfl, a, ha, rfl⟩
    · obtain ⟨hterm, htype⟩ := symbolOf_own promoteLocals a slot
      exact ⟨hterm.trans (h.placed id a ha), a, ha, htype⟩
  locals hp := by
    rw [hp, locals_ofTerms_false]
  slots hp {slot id} hslot := by
    rw [hp] at hslot ⊢
    exact slot_of_local h.placed signature hslot
  defaults hp := by
    rw [hp, defaults_ofTerms h.named, locals_ofTerms_false, List.filterMap_map, TermTable.ofKind,
      List.filterMap_filter]
    refine List.filterMap_congr fun a ha => ?_
    rw [defaultOf?, isSlotted_false]
    split
    · next hk =>
        obtain ⟨i, hi⟩ := List.mem_iff_getElem?.mp ha
        rw [Function.comp_apply, h.placed i a hi,
          storage_of_local h.placed signature hi (of_decide_eq_true hk)]
        rfl
    · rfl
  slotless hp id slot hslot := by
    obtain ⟨symbol, hsymbol, hstorage⟩ := Option.map_eq_some_iff.mp hslot
    obtain ⟨a, slot', _, rfl | rfl⟩ := get?_ofTerms_cases h.placed hsymbol
    · cases hstorage
    · cases hk : a.kind <;> simp [symbolOf, hk, hp] at hstorage
  promoted hp {id a} ha hk := storage_of_promotion h.placed signature ha
    (by rw [promotion?, hk, if_pos hp])
  literals {id a} ha hk := by
    rw [storage?, get?_ofTerms_of_term h.placed signature promoteLocals ha
      (by simp [isParameter, hk]), symbolOf, hk]
    rfl
  frames {id a} ha hk := storage_of_promotion h.placed signature ha (by rw [promotion?, hk])
  distinct := nodup_promotedMembers t promoteLocals

def counters :
    TermTable := ((({} : TermTable).addLocal "count" ⟨.int, .single⟩ (some "3")).2.addLiteral
      ⟨.int, .single⟩ "7").2

/-- A local that had to leave its name to the class keeps its default and its own member. -/
theorem counters_assembles : ∃ r, counters.member .persistentFrame "count" ⟨.int, .single⟩ = .ok r ∧
    (∀ promoteLocals, Assembles r.2 promoteLocals (ofTerms r.2 ⟨"Tick", [], {}⟩ promoteLocals)
      (promotedMembers r.2 promoteLocals)) ∧
    (ofTerms r.2 ⟨"Tick", [], {}⟩ false).defaults.entries = [("count_1", "3")] ∧
    (promotedMembers r.2 true).map PromotedMember.name = ["Frame_count_1", "count"] := by
  have hbuilt : counters.Built := .addLiteral (.addLocal .empty _ _ _) _ _
  refine ⟨_, rfl, fun promoteLocals => ?_, by decide +kernel, by decide +kernel⟩
  exact built_assembles (hbuilt.member .persistentFrame "count" ⟨.int, .single⟩ rfl) _ promoteLocals

end SymbolTable

end VisualScript
