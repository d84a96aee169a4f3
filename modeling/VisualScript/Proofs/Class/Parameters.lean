import VisualScript.Proofs.Class.Promotion
import VisualScript.Proofs.Signature.Override
import VisualScript.Proofs.Term.Declarations

namespace VisualScript

attribute [ext] Param

def Term.param (a : Term) : Param := ⟨a.declared, a.type, if a.kind = .output then .output else .input⟩

namespace SymbolTable

/-- The parameters have the slots that the signature says: there is one term for each of them, of the
same name, type and direction, and it is stored where the parameter stands. -/
structure Matches (t : TermTable) (s : SymbolTable) (signature : Signature) : Prop where
  nodup : s.parameters.Nodup
  length : s.parameters.length = signature.params.length
  slot : ∀ {i : Nat} {id : TermId} {p : Param}, s.parameters[i]? = some id →
    signature.params[i]? = some p →
    (∃ a, t.get? id = some a ∧ a.declared = p.name ∧ a.type = p.type ∧ a.kind = termKind p.direction) ∧
      ∃ symbol, s.symbols.get? id = some symbol ∧ symbol.type = p.type ∧ symbol.storage = .parameter i

def slot? (t : TermTable) (p : Param) : Option TermId := t.find? (termKind p.direction) p.name

def parametersOf (t : TermTable) : List Term := t.terms.filter isParameter

variable {t : TermTable} {signature : Signature} {promoteLocals : Bool} {a : Term}

theorem mem_parametersOf (ht : t.Valid) :
    a ∈ parametersOf t ↔ t.get? a.id = some a ∧ isParameter a = true := by
  rw [parametersOf, List.mem_filter, List.mem_iff_getElem?]
  refine and_congr_left fun _ => ⟨fun ⟨i, hi⟩ => ?_, fun h => ⟨a.id, h⟩⟩
  rw [ht.ids hi]
  exact hi

theorem nodup_parametersOf (ht : t.Valid) : ((parametersOf t).map Term.id).Nodup := by
  have hnodup : (t.terms.map Term.id).Nodup := ht.placed.map_id ▸ List.nodup_range
  exact hnodup.sublist (List.filter_sublist.map Term.id)

theorem termKind_param (h : isParameter a = true) : termKind a.param.direction = a.kind := by
  rw [isParameter, Bool.or_eq_true, decide_eq_true_eq, decide_eq_true_eq] at h
  rcases h with h | h <;> rw [Term.param, h] <;> rfl

theorem isParameter_termKind {direction : ParamDirection} (h : a.kind = termKind direction) :
    isParameter a = true ∧ a.param.direction = direction := by
  cases direction <;> rw [isParameter, Term.param, h] <;> exact ⟨rfl, rfl⟩

theorem signature_perm (t : TermTable) (name : String) (flags : Flags) :
    (t.signature name flags).params.Perm ((parametersOf t).map Term.param) := by
  have hof (kind : TermKind) (direction : ParamDirection) (hk : termKind direction = kind) :
      (t.ofKind kind).map (fun p => (⟨p.declared, p.type, direction⟩ : Param)) =
        (t.ofKind kind).map Term.param := by
    refine List.map_congr_left fun a ha => ?_
    have hkind : a.kind = termKind direction := hk ▸ by simpa using (List.mem_filter.mp ha).2
    rw [← (isParameter_termKind hkind).2]
    rfl
  have hinputs : (parametersOf t).filter (fun a => a.kind = .parameter) = t.ofKind .parameter := by
    rw [parametersOf, List.filter_filter, TermTable.ofKind]
    refine List.filter_congr fun a _ => ?_
    cases hk : a.kind <;> simp [isParameter, hk]
  have houtputs : (parametersOf t).filter (fun a => !decide (a.kind = .parameter)) = t.ofKind .output := by
    rw [parametersOf, List.filter_filter, TermTable.ofKind]
    refine List.filter_congr fun a _ => ?_
    cases hk : a.kind <;> simp [isParameter, hk]
  have hperm := List.filter_append_perm (fun a : Term => decide (a.kind = .parameter)) (parametersOf t)
  rw [hinputs, houtputs] at hperm
  rw [TermTable.signature, hof .parameter .input rfl, hof .output .output rfl, ← List.map_append]
  exact hperm.map Term.param

theorem slot?_param (ht : t.Valid) (hi : t.Indexed) (ha : a ∈ parametersOf t) :
    ∃ b ∈ parametersOf t, slot? t a.param = some b.id ∧ b.param.key = a.param.key := by
  obtain ⟨hget, hparam⟩ := (mem_parametersOf ht).mp ha
  have hkind : a.kind ≠ .literal := fun hk => by simp [isParameter, hk] at hparam
  have hroll : (a.kind, a.declared, a.type) ∈ t.roll := List.mem_map_of_mem (List.mem_of_getElem? hget)
  obtain ⟨i, hfound⟩ := Option.isSome_iff_exists.mp ((hi.isSome_find? hkind).mpr ⟨a.type, hroll⟩)
  obtain ⟨type, hplace⟩ := hi.getElem? hkind hfound
  rw [TermTable.getElem?_roll] at hplace
  obtain ⟨b, hb, he⟩ := Option.map_eq_some_iff.mp hplace
  obtain ⟨hbkind, he⟩ := Prod.mk.inj he
  have hid := ht.ids hb
  refine ⟨b, (mem_parametersOf ht).mpr ⟨hid.symm ▸ hb, ?_⟩, ?_, ?_⟩
  · rwa [isParameter, hbkind]
  · rw [slot?, termKind_param hparam, hid]
    exact hfound
  · rw [Param.key, Param.key, Term.param, Term.param, hbkind, (Prod.mk.inj he).1]

theorem map_some_filterMap {α β : Type} {f : α → Option β} {l : List α}
    (h : ∀ x ∈ l, (f x).isSome = true) :
    (l.filterMap f).map some = l.map f := by
  induction l with
  | nil => rfl
  | cons x rest ih =>
      obtain ⟨hx, hrest⟩ := List.forall_mem_cons.mp h
      obtain ⟨y, hy⟩ := Option.isSome_iff_exists.mp hx
      rw [List.filterMap_cons_some hy, List.map_cons, List.map_cons, ih hrest, hy]

theorem parameters_ofTerms (t : TermTable) (signature : Signature) (promoteLocals : Bool) :
    (ofTerms t signature promoteLocals).parameters = parameterTerms t signature := by
  rw [ofTerms]
  refine List.foldlRecOn (motive := fun s : SymbolTable => s.parameters = _) _ _ ?_ fun s hs a _ => ?_
  · refine List.foldlRecOn (motive := fun s : SymbolTable => s.parameters = _) _ _ rfl fun s hs p _ => ?_
    rw [addParameter]
    split <;> exact hs
  · rw [addTerm]
    split
    all_goals first | exact hs | (split <;> exact hs)

theorem get?_ofTerms_parameter (ht : t.Valid) (hnodup : (parameterTerms t signature).Nodup)
    {i : Nat} {id : TermId} (hi : (parameterTerms t signature)[i]? = some id)
    (ha : t.get? id = some a) (hp : isParameter a = true) :
    (ofTerms t signature promoteLocals).symbols.get? id = some ⟨id, a.name, a.type, .parameter i⟩ := by
  obtain ⟨slot, hslot, hget⟩ := get?_ofTerms_of_parameter ht.placed signature promoteLocals ha hp
  rwa [(List.getElem?_inj (List.getElem?_eq_some_iff.mp hi).1 hnodup).mp (hi.trans hslot.symm)]

theorem slot?_of_nodup (ht : t.Valid) (hi : t.Indexed)
    (hkeys : ((parametersOf t).map fun a => a.param.key).Nodup) (ha : a ∈ parametersOf t) :
    slot? t a.param = some a.id := by
  obtain ⟨b, hb, hslot, hkey⟩ := slot?_param ht hi ha
  rw [hslot, List.inj_on_of_nodup_map hkeys hb ha hkey]

theorem parameterTerms_of_slots
    (h : ∀ a ∈ parametersOf t, a.id ∈ signature.params.filterMap (slot? t)) :
    parameterTerms t signature = signature.params.filterMap (slot? t) := by
  have hrest : (t.terms.filter fun term => isParameter term &&
      decide (term.id ∉ signature.params.filterMap (slot? t))) = [] := by
    refine List.filter_eq_nil_iff.mpr fun a ha => ?_
    rw [Bool.and_eq_true, decide_eq_true_eq]
    rintro ⟨hparam, hout⟩
    exact hout (h a (List.mem_filter.mpr ⟨ha, hparam⟩))
  have hterms : parameterTerms t signature = signature.params.filterMap (slot? t) ++
      ((t.terms.filter fun term => isParameter term &&
        decide (term.id ∉ signature.params.filterMap (slot? t))).map Term.id) := rfl
  rw [hterms, hrest]
  exact List.append_nil _

/-- The slots match the signature if it has just the parameters that are declared, in whatever order, and
these are told apart by direction and name. -/
theorem matches_of_perm (ht : t.Valid) (hi : t.Indexed)
    (hperm : signature.params.Perm ((parametersOf t).map Term.param))
    (hkeys : ((parametersOf t).map fun a => a.param.key).Nodup) :
    Matches t (ofTerms t signature promoteLocals) signature := by
  have hsome : ∀ p ∈ signature.params, ∃ a ∈ parametersOf t, a.param = p ∧ slot? t p = some a.id := by
    intro p hp
    obtain ⟨a, ha, rfl⟩ := List.mem_map.mp (hperm.mem_iff.mp hp)
    exact ⟨a, ha, rfl, slot?_of_nodup ht hi hkeys ha⟩
  have hids : (signature.params.filterMap (slot? t)).Perm ((parametersOf t).map Term.id) := by
    have hfound : ((parametersOf t).map Term.param).filterMap (slot? t) =
        (parametersOf t).map Term.id := by
      rw [List.filterMap_map, ← List.filterMap_eq_map]
      exact List.filterMap_congr fun a ha => slot?_of_nodup ht hi hkeys ha
    exact hfound ▸ hperm.filterMap (slot? t)
  have hterms := parameterTerms_of_slots fun a ha => hids.mem_iff.mpr (List.mem_map_of_mem ha)
  have hnodup : (parameterTerms t signature).Nodup := hterms ▸ hids.nodup_iff.mpr (nodup_parametersOf ht)
  refine ⟨?_, ?_, fun {i id p} hid hp => ?_⟩
  · rwa [parameters_ofTerms]
  · rw [parameters_ofTerms, hterms, hids.length_eq, List.length_map, hperm.length_eq, List.length_map]
  · rw [parameters_ofTerms] at hid
    obtain ⟨a, ha, rfl, hslot⟩ := hsome p (List.mem_of_getElem? hp)
    have hfound : ∀ p ∈ signature.params, (slot? t p).isSome = true := fun p hp => by
      obtain ⟨b, _, _, hb⟩ := hsome p hp
      rw [hb]
      rfl
    have hlist := map_some_filterMap hfound
    have hat := congrArg (fun l => l[i]?) hlist
    simp only [List.getElem?_map, ← hterms, hid, hp, Option.map_some, hslot] at hat
    cases hat
    obtain ⟨hget, hparam⟩ := (mem_parametersOf ht).mp ha
    exact ⟨⟨a, hget, rfl, rfl, (termKind_param hparam).symm⟩, _,
      get?_ofTerms_parameter ht hnodup hid hget hparam, rfl, rfl⟩

/-- Conversely, each slot holds the term of a declared parameter, and no such term is left out. -/
theorem Matches.perm (ht : t.Valid) (h : Matches t (ofTerms t signature promoteLocals) signature) :
    signature.params.Perm ((parametersOf t).map Term.param) := by
  have hlength := h.length
  have hnodup := h.nodup
  rw [parameters_ofTerms] at hlength hnodup
  have hterm {i : Nat} {id : TermId} (hid : (parameterTerms t signature)[i]? = some id) :
      ∃ a ∈ parametersOf t, a.id = id ∧ signature.params[i]? = some a.param := by
    have hp := List.getElem?_eq_getElem (hlength ▸ (List.getElem?_eq_some_iff.mp hid).1)
    obtain ⟨⟨a, ha, hname, htype, hkind⟩, _⟩ :=
      h.slot ((congrArg (fun l => l[i]?) (parameters_ofTerms ..)).trans hid) hp
    have hparam := isParameter_termKind hkind
    refine ⟨a, (mem_parametersOf ht).mpr ⟨(ht.ids ha).symm ▸ ha, hparam.1⟩, ht.ids ha,
      hp.trans (congrArg some ?_)⟩
    exact Param.ext hname.symm htype.symm hparam.2.symm
  have hids : (parameterTerms t signature).Perm ((parametersOf t).map Term.id) := by
    refine (List.perm_ext_iff_of_nodup hnodup (nodup_parametersOf ht)).mpr fun id =>
      ⟨fun hid => ?_, fun hid => ?_⟩
    · obtain ⟨i, hi⟩ := List.mem_iff_getElem?.mp hid
      obtain ⟨a, ha, rfl, _⟩ := hterm hi
      exact List.mem_map_of_mem ha
    · obtain ⟨a, ha, rfl⟩ := List.mem_map.mp hid
      obtain ⟨hget, hparam⟩ := (mem_parametersOf ht).mp ha
      exact mem_parameterTerms ht.placed signature hget hparam
  have hparams : (parameterTerms t signature).map (fun id => (t.get? id).map Term.param) =
      signature.params.map some := by
    refine List.ext_getElem? fun i => ?_
    rw [List.getElem?_map, List.getElem?_map]
    cases hid : (parameterTerms t signature)[i]? with
    | none => rw [List.getElem?_eq_none (hlength ▸ List.getElem?_eq_none_iff.mp hid)]; rfl
    | some id =>
        obtain ⟨a, ha, rfl, hp⟩ := hterm hid
        rw [hp, Option.map_some, ((mem_parametersOf ht).mp ha).1]
        rfl
  have hback : ((parametersOf t).map Term.id).map (fun id => (t.get? id).map Term.param) =
      ((parametersOf t).map Term.param).map some := by
    rw [List.map_map, List.map_map]
    exact List.map_congr_left fun a ha => by simp [((mem_parametersOf ht).mp ha).1]
  have hperm := (hids.map fun id => (t.get? id).map Term.param).filterMap id
  rw [hparams, hback] at hperm
  simpa using hperm

theorem Matches.nodup_key (ht : t.Valid) (hi : t.Indexed)
    (h : Matches t (ofTerms t signature promoteLocals) signature) :
    (signature.params.map Param.key).Nodup := by
  have hfound : ∀ p ∈ signature.params, (slot? t p).isSome = true := by
    intro p hp
    obtain ⟨a, ha, rfl⟩ := List.mem_map.mp ((h.perm ht).mem_iff.mp hp)
    obtain ⟨b, _, hb, _⟩ := slot?_param ht hi ha
    rw [hb]
    rfl
  have hnodup := h.nodup
  rw [parameters_ofTerms] at hnodup
  have hnamed : (signature.params.filterMap (slot? t)).Nodup :=
    hnodup.sublist (List.sublist_append_left _ _)
  have hmap := hnamed.map (Option.some_injective _)
  rw [map_some_filterMap hfound] at hmap
  -- What a parameter is found as depends on its key alone.
  refine List.Nodup.of_map (fun k : ParamDirection × String => t.find? (termKind k.1) k.2) ?_
  rwa [List.map_map]

theorem matches_iff (ht : t.Valid) (hi : t.Indexed) (name : String) (flags : Flags) :
    Matches t (ofTerms t signature promoteLocals) signature ↔
      signature.params.Perm (t.signature name flags).params ∧
        ((t.signature name flags).params.map Param.key).Nodup := by
  have hdeclared := signature_perm t name flags
  have hkeys : ((t.signature name flags).params.map Param.key).Nodup ↔
      ((parametersOf t).map fun a => a.param.key).Nodup := by
    rw [(hdeclared.map Param.key).nodup_iff, List.map_map]
    rfl
  constructor
  · intro h
    have hperm := (h.perm ht).trans hdeclared.symm
    exact ⟨hperm, (hperm.map Param.key).nodup_iff.mp (h.nodup_key ht hi)⟩
  · rintro ⟨hperm, hnodup⟩
    exact matches_of_perm ht hi (hperm.trans hdeclared) (hkeys.mp hnodup)

end SymbolTable

end VisualScript
