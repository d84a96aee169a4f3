import VisualScript.Proofs.Class.Promotion
import VisualScript.Proofs.Compile.Dispatch

namespace VisualScript

namespace Job

variable {env : Env} {u : CompilationUnit} {schema : Schema} {j : Job}

/-- The slots of a function are those of the parameters of its events. -/
theorem slot_prepared (hterms : j.work.terms = {}) (hv : (j.prepared env u).work.hasErrors = false)
    {i : TermId} {a : Term} (ha : (j.prepared env u).work.terms.get? i = some a)
    (hk : a.kind = .persistentFrame) :
    ∃ (id : NodeId) (n : ScriptNode) (spec : EventSpec), j.work.graph.node? id = some n ∧
      n.kind = .event spec ∧
      ∃ p ∈ n.portsWhere .data .output, a.name = slotName spec.name p.2.name ∧ a.type = p.2.type := by
  have hempty : j.work.terms.Orderly := hterms ▸ TermTable.orderly_empty
  have hnoted := Working.noted_validateEntries j.work
  obtain ⟨hearly, horderly, _, hchanges⟩ := precompile_registers hv hempty
  have hkeeps := TermTable.Changes.keeps hchanges horderly
  cases hb : (j.work.validateEntries.registerTerms .standard env true).terms.get? i with
  | none =>
      -- Events register early, so a term that came later is no slot of theirs.
      have hmember := hkeeps.new ha hb (hk ▸ rfl)
      rw [hk] at hmember
      cases hmember
  | some b =>
      obtain ⟨a', ha', hab⟩ := hkeeps.old hb
      cases ha.symm.trans ha'
      have hbk : b.kind = .persistentFrame := hab.kind.symm.trans hk
      have hregisters := (Working.registerTerms_registers env true j.work.validateEntries).terms hearly
      have hnone : j.work.validateEntries.terms.get? i = none := by
        rw [hnoted.terms, hterms]
        rfl
      obtain ⟨id, n, hn, _, hmember | ⟨_, spec, hspec, p, hp, hname, htype⟩⟩ :=
        (TermTable.Changes.keeps hregisters (hnoted.terms ▸ hempty)).new hb hnone (hbk ▸ rfl)
      · rw [hbk] at hmember
        cases hmember
      · exact ⟨id, n, spec, hnoted.graph ▸ hn, hspec, p, hp, (hab.name (hbk ▸ rfl)).trans hname,
          hab.type.trans htype⟩

theorem exists_slot (hterms : j.work.terms = {}) (hv : (j.prepared env u).work.hasErrors = false)
    {id : NodeId} {n : ScriptNode} {spec : EventSpec} (hn : j.work.graph.node? id = some n)
    (hk : n.kind = .event spec) {p : UInt16 × Port} (hp : p ∈ n.portsWhere .data .output) :
    ∃ i a, (j.prepared env u).work.terms.get? i = some a ∧
      a.kind = .persistentFrame ∧ a.name = slotName spec.name p.2.name := by
  have hempty : j.work.terms.Orderly := hterms ▸ TermTable.orderly_empty
  have hnoted := Working.noted_validateEntries j.work
  obtain ⟨hearly, horderly, _, hchanges⟩ := precompile_registers hv hempty
  obtain ⟨i, a, ha, hkind, hname⟩ :=
    (Working.registerTerms_event (hnoted.terms ▸ hempty) hearly (hnoted.graph ▸ hn) hk hp).1
  obtain ⟨b, hb, hab⟩ := (TermTable.Changes.keeps hchanges horderly).old ha
  exact ⟨i, b, hb, hab.kind.trans hkind, (hab.name (hkind ▸ rfl)).trans hname⟩

theorem promoted_of_role (hj : j ∈ ofUnit u schema) (hrole : j.work.role ≠ .eventGraph)
    (hv : (j.prepared env u).work.hasErrors = false) : (j.prepared env u).promoted env = [] := by
  have hlocals : (j.prepared env u).promotesLocals env = false := by
    rw [promotesLocals, (prepared_same env u j).role, decide_eq_false hrole, Bool.false_and]
  have hnone : (j.prepared env u).work.terms.terms.filterMap
      (SymbolTable.promotion? (j.prepared env u).work.terms false) = [] := by
    refine List.filterMap_eq_nil_iff.mpr fun a ha => ?_
    obtain ⟨i, hi⟩ := List.mem_iff_getElem?.mp ha
    rw [SymbolTable.promotion?]
    cases hk : a.kind <;> simp only [Bool.false_eq_true, if_false]
    -- A slot would belong to an event, and only the event graph may have events.
    obtain ⟨id, n, spec, hn, hspec, _⟩ := slot_prepared (ofUnit_initial hj).terms hv hi hk
    have hvalid := (registerSignature_frame env u j).hasErrors (Working.precompile_of_valid hv).1
    rcases (Working.entries_of_valid hvalid).2 with hgraph | hevents
    · exact absurd hgraph hrole
    · have hmem : id ∈ j.work.graph.findNodes fun n => n.kind.eventSpec?.isSome :=
        Graph.mem_findNodes.mpr ⟨n, hn, by rw [hspec]; rfl⟩
      rw [hevents] at hmem
      cases hmem
  rw [promoted, hlocals, SymbolTable.promotedMembers, hnone]
  rfl

end Job

/-- A term of a function is stored in a member of the class. -/
def CompiledFunction.Keeps (f : CompiledFunction) (i : TermId) (member : String) : Prop :=
  ∃ s, f.symbols.symbols.get? i = some s ∧ s.storage = .member member

/-- The event graph reads a parameter of an event from a member of the class. -/
def EventInfo.HeldIn (info : EventInfo) (p : Param) (main : CompiledFunction) (t : TermTable)
    (member : String) : Prop :=
  ∃ i a, t.get? i = some a ∧ a.kind = .persistentFrame ∧ a.name = slotName info.spec.name p.name ∧
    main.Keeps i member

/-- Slots of events and of locals of the event graph are members of their own. -/
structure EventGraph.Apart (e : EventGraph) (main : CompiledFunction) (t : TermTable)
    (members : OrderedMap String MemberSlot) :
    Prop where
  params : ∀ {info info' : EventInfo} {p p' : Param} {member : String}, info ∈ e.events.values →
    p ∈ info.params →
    info' ∈ e.events.values → p' ∈ info'.params → (info.spec.name, p.name) ≠ (info'.spec.name, p'.name) →
    info.HeldIn p main t member → ¬ info'.HeldIn p' main t member
  locals : ∀ {i j : TermId} {a b : Term} {member : String}, t.get? i = some a → a.kind = .local →
    t.get? j = some b →
    b.kind = .local → i ≠ j → main.Keeps i member → ¬ main.Keeps j member
  paramMember : ∀ {info : EventInfo} {p : Param} {member : String}, info ∈ e.events.values →
    p ∈ info.params →
    info.HeldIn p main t member → ∃ slot, members.get? member = some slot ∧
      slot.origin = .persistentFrame ∧ slot.type = p.type
  localMember : ∀ {i : TermId} {a : Term} {member : String}, t.get? i = some a → a.kind = .local →
    main.Keeps i member →
    ∃ slot, members.get? member = some slot ∧ slot.origin = .persistentFrame ∧ slot.type = a.type

/-- The names and types of the slots that the event graph asks the class for. -/
def EventGraph.requested (e : EventGraph) (t : TermTable) (promotesLocals : Bool) :
    List (String × PinType) :=
  (e.events.values.flatMap fun info => info.params.map fun p => (slotName info.spec.name p.name,
    p.type)) ++
    if promotesLocals then (t.ofKind .local).map fun a => (SymbolTable.frameName a.name, a.type) else []

/-- The names tell the slots apart, from each other and from what is declared. -/
structure EventGraph.NamedApart (e : EventGraph) (t : TermTable) (promotesLocals : Bool)
    (schema : Schema) : Prop where
  params : ∀ {info info' : EventInfo} {p p' : Param}, info ∈ e.events.values → p ∈ info.params →
    info' ∈ e.events.values → p' ∈ info'.params → (info.spec.name, p.name) ≠ (info'.spec.name, p'.name) →
    slotName info.spec.name p.name ≠ slotName info'.spec.name p'.name
  undeclared : ∀ r ∈ e.requested t promotesLocals, schema.members.get? r.1 = none
  types : ∀ r ∈ e.requested t promotesLocals, ∀ r' ∈ e.requested t promotesLocals, r.1 = r'.1 → r.2 = r'.2

namespace EventGraph

variable {e : EventGraph} {main : CompiledFunction} {t : TermTable} {promotesLocals : Bool}
    {schema : Schema}
  {members : OrderedMap String MemberSlot} {signature : Signature} {info : EventInfo} {p : Param}
    {i : TermId} {a : Term} {member : String}

theorem mem_requested {r : String × PinType} : r ∈ e.requested t promotesLocals ↔
    (∃ info ∈ e.events.values, ∃ p ∈ info.params, r = (slotName info.spec.name p.name, p.type)) ∨
      promotesLocals = true ∧ ∃ i a, t.get? i = some a ∧ a.kind = .local ∧
        r = (SymbolTable.frameName a.name, a.type) := by
  rw [requested, List.mem_append, List.mem_flatMap]
  refine or_congr ?_ ?_
  · simp only [List.mem_map, eq_comm]
  · split
    · next hp =>
        simp only [hp, true_and, List.mem_map, TermTable.ofKind, List.mem_filter, decide_eq_true_eq]
        constructor
        · rintro ⟨a, ⟨ha, hk⟩, rfl⟩
          obtain ⟨i, hi⟩ := List.mem_iff_getElem?.mp ha
          exact ⟨i, a, hi, hk, rfl⟩
        · rintro ⟨i, a, hi, hk, rfl⟩
          exact ⟨a, ⟨List.mem_of_getElem? hi, hk⟩, rfl⟩
    · next hp => simp [hp]

section Apart

variable (ht : t.Orderly) (hsymbols : main.symbols = .ofTerms t signature promotesLocals)

include ht hsymbols

theorem keeps_of_promotion {m : PromotedMember} (ha : t.get? i = some a)
    (hm : SymbolTable.promotion? t promotesLocals a = some m) :
    main.Keeps i member ↔ member = m.name := by
  rw [CompiledFunction.Keeps, hsymbols, SymbolTable.get?_ofTerms ht.placed signature promotesLocals ha hm]
  simp [eq_comm]

theorem keeps_slot (ha : t.get? i = some a) (hk : a.kind = .persistentFrame) :
    main.Keeps i member ↔ member = a.name :=
  keeps_of_promotion ht hsymbols (m := ⟨a.name, a.type, none⟩) ha (by simp [SymbolTable.promotion?, hk])

theorem keeps_local (ha : t.get? i = some a) (hk : a.kind = .local) :
    main.Keeps i member ↔ promotesLocals = true ∧ member = SymbolTable.frameName a.name := by
  cases promotesLocals with
  | true =>
      rw [keeps_of_promotion ht hsymbols (m := ⟨SymbolTable.frameName a.name, a.type,
        t.initial? a.id⟩) ha (by simp [SymbolTable.promotion?, hk])]
      simp
  | false =>
      rw [CompiledFunction.Keeps, hsymbols, SymbolTable.storage_of_local ht.placed signature ha hk]
      simp

theorem heldIn_iff
    (hheld : ∃ i a, t.get? i = some a ∧ a.kind = .persistentFrame ∧
      a.name = slotName info.spec.name p.name) :
    info.HeldIn p main t member ↔ member = slotName info.spec.name p.name := by
  constructor
  · rintro ⟨i, a, ha, hk, hname, hkeeps⟩
    exact ((keeps_slot ht hsymbols ha hk).mp hkeeps).trans hname
  · rintro rfl
    obtain ⟨i, a, ha, hk, hname⟩ := hheld
    exact ⟨i, a, ha, hk, hname, (keeps_slot ht hsymbols ha hk).mpr hname.symm⟩

theorem locals_apart {j : TermId} {b : Term} (ha : t.get? i = some a) (hk : a.kind = .local)
    (hb : t.get? j = some b) (hk' : b.kind = .local) (hne : i ≠ j) (hkeeps : main.Keeps i member) :
    ¬ main.Keeps j member := by
  intro hkeeps'
  have hframe := ((keeps_local ht hsymbols ha hk).mp hkeeps).2.symm.trans
    ((keeps_local ht hsymbols hb hk').mp hkeeps').2
  -- The prefix is the same for both, and no two terms of a function have the same name.
  have hletters := congrArg String.toList hframe
  rw [SymbolTable.frameName, SymbolTable.frameName, String.toList_append, String.toList_append] at hletters
  exact hne (ht.apart ha hb (String.toList_inj.mp (List.append_cancel_left hletters)))

variable
  (hslots : ∀ {i : TermId} {a : Term}, t.get? i = some a → a.kind = .persistentFrame →
    ∃ info ∈ e.events.values, ∃ p ∈ info.params, a.name = slotName info.spec.name p.name ∧ a.type = p.type)
  (hheld : ∀ info ∈ e.events.values, ∀ p ∈ info.params,
    ∃ i a, t.get? i = some a ∧ a.kind = .persistentFrame ∧ a.name = slotName info.spec.name p.name)
  (hmembers : ∀ name, members.get? name = ((schema.members.get? name).map ClassLayout.slotOf).or
    (((t.terms.filterMap (SymbolTable.promotion? t promotesLocals)).find? fun m => m.name =
      name).map fun m =>
      ⟨m.name, m.type, .persistentFrame, m.default⟩))

omit ht hsymbols in
include hslots in
theorem requested_of_promotion {m : PromotedMember} (ha : t.get? i = some a)
    (hm : SymbolTable.promotion? t promotesLocals a = some m) :
    (m.name, m.type) ∈ e.requested t promotesLocals := by
  rw [SymbolTable.promotion?] at hm
  cases hk : a.kind <;> simp only [hk] at hm
  case «local» =>
    split at hm
    · next hp =>
        cases hm
        exact mem_requested.mpr (Or.inr ⟨hp, i, a, ha, hk, rfl⟩)
    · cases hm
  case persistentFrame =>
    cases hm
    obtain ⟨info, hinfo, p, hp, hname, htype⟩ := hslots ha hk
    exact mem_requested.mpr (Or.inl ⟨info, hinfo, p, hp, Prod.ext hname htype⟩)
  all_goals cases hm

omit ht hsymbols in
include hheld in
theorem exists_promotion {r : String × PinType} (hr : r ∈ e.requested t promotesLocals) :
    ∃ i a m, t.get? i = some a ∧ SymbolTable.promotion? t promotesLocals a = some m ∧ m.name = r.1 := by
  rcases mem_requested.mp hr with ⟨info, hinfo, p, hp, rfl⟩ | ⟨hpromotes, i, a, ha, hk, rfl⟩
  · obtain ⟨i, a, ha, hk, hname⟩ := hheld info hinfo p hp
    exact ⟨i, a, ⟨a.name, a.type, none⟩, ha, by simp [SymbolTable.promotion?, hk], hname⟩
  · exact ⟨i, a, ⟨SymbolTable.frameName a.name, a.type, t.initial? a.id⟩, ha,
      by simp [SymbolTable.promotion?, hk, hpromotes], rfl⟩

omit ht hsymbols in
include hslots hheld hmembers in
theorem member_of_request (hnamed : e.NamedApart t promotesLocals schema) {r : String × PinType}
    (hr : r ∈ e.requested t promotesLocals) :
    ∃ slot, members.get? r.1 = some slot ∧ slot.origin = .persistentFrame ∧ slot.type = r.2 := by
  obtain ⟨i, a, m, ha, hm, hname⟩ := exists_promotion hheld hr
  have hasked : ((t.terms.filterMap (SymbolTable.promotion? t promotesLocals)).find?
    fun m => m.name = r.1).isSome = true :=
    List.find?_isSome.mpr ⟨m, List.mem_filterMap.mpr ⟨a, List.mem_of_getElem? ha, hm⟩,
      decide_eq_true hname⟩
  -- The member may have been promoted for another request of the name, so the types have to agree.
  obtain ⟨m', hm'⟩ := Option.isSome_iff_exists.mp hasked
  have hname' : m'.name = r.1 := by simpa using List.find?_some hm'
  obtain ⟨b, hb, hpromotion⟩ := List.mem_filterMap.mp (List.mem_of_find?_eq_some hm')
  obtain ⟨j, hj⟩ := List.mem_iff_getElem?.mp hb
  have htype := hnamed.types _ (requested_of_promotion hslots hj hpromotion) r hr hname'
  refine ⟨⟨m'.name, m'.type, .persistentFrame, m'.default⟩, ?_, rfl, htype⟩
  rw [hmembers, hnamed.undeclared r hr, hm']
  rfl

omit ht hsymbols in
include hmembers in
theorem not_declared {name : String} {slot : MemberSlot} (hslot : members.get? name = some slot)
    (horigin : slot.origin = .persistentFrame) :
    schema.members.get? name = none := by
  refine Option.eq_none_iff_forall_ne_some.mpr fun m hm => ?_
  rw [hmembers, hm, Option.map_some, Option.some_or] at hslot
  cases hslot
  simp only [ClassLayout.slotOf] at horigin
  split at horigin <;> cases horigin

include hslots hheld hmembers in
/-- Slots are members of their own just if their names tell them apart. -/
theorem apart_iff : e.Apart main t members ↔ e.NamedApart t promotesLocals schema := by
  constructor
  · intro h
    have hrequest (r : String × PinType) (hr : r ∈ e.requested t promotesLocals) :
        ∃ slot, members.get? r.1 = some slot ∧ slot.origin = .persistentFrame ∧ slot.type = r.2 := by
      rcases mem_requested.mp hr with ⟨info, hinfo, p, hp, rfl⟩ | ⟨hpromotes, i, a, ha, hk, rfl⟩
      · exact h.paramMember hinfo hp ((heldIn_iff ht hsymbols (hheld info hinfo p hp)).mpr rfl)
      · exact h.localMember ha hk ((keeps_local ht hsymbols ha hk).mpr ⟨hpromotes, rfl⟩)
    refine ⟨?_, ?_, ?_⟩
    · intro info info' p p' hinfo hp hinfo' hp' hne hname
      refine h.params hinfo hp hinfo' hp' hne ((heldIn_iff ht hsymbols (hheld info hinfo p hp)).mpr rfl) ?_
      exact (heldIn_iff ht hsymbols (hheld info' hinfo' p' hp')).mpr hname
    · intro r hr
      obtain ⟨slot, hslot, horigin, _⟩ := hrequest r hr
      exact not_declared hmembers hslot horigin
    · intro r hr r' hr' hname
      obtain ⟨slot, hslot, _, htype⟩ := hrequest r hr
      obtain ⟨slot', hslot', _, htype'⟩ := hrequest r' hr'
      rw [hname, hslot'] at hslot
      cases hslot
      exact htype.symm.trans htype'
  · intro h
    refine ⟨?_, fun ha hk hb hk' hne => locals_apart ht hsymbols ha hk hb hk' hne, ?_, ?_⟩
    · intro info info' p p' member hinfo hp hinfo' hp' hne hin hin'
      have hname := (heldIn_iff ht hsymbols (hheld info hinfo p hp)).mp hin
      exact h.params hinfo hp hinfo' hp' hne
        (hname.symm.trans ((heldIn_iff ht hsymbols (hheld info' hinfo' p' hp')).mp hin'))
    · intro info p member hinfo hp hin
      rw [(heldIn_iff ht hsymbols (hheld info hinfo p hp)).mp hin]
      exact member_of_request hslots hheld hmembers h
        (mem_requested.mpr (Or.inl ⟨info, hinfo, p, hp, rfl⟩))
    · intro i a member ha hk hkeeps
      obtain ⟨hpromotes, rfl⟩ := (keeps_local ht hsymbols ha hk).mp hkeeps
      exact member_of_request hslots hheld hmembers h
        (mem_requested.mpr (Or.inr ⟨hpromotes, i, a, ha, hk, rfl⟩))

end Apart

end EventGraph

namespace Compiler

variable {c : Compiler} {u : CompilationUnit} {cls : CompiledClass}

section Success

variable (hreg : c.registry = .standard) (hmode : c.options.mode = .full)
    (h : c.compile u = .ok cls) (hsuccess : cls.isSuccess = true)

include hreg hmode h hsuccess

theorem promoted_of_success {before : List Job}
    (hjobs : Job.ofUnit u (c.env u).schema = before ++ [Job.eventGraphOf u (c.env u).schema])
    (hroles : ∀ j ∈ before, j.work.role ≠ .eventGraph) :
    c.promoted u = ((Job.eventGraphOf u (c.env u).schema).prepared (c.env u) u).promoted (c.env u) := by
  have hnone : (before.map (Job.prepared (c.env u) u)).flatMap (Job.promoted (c.env u)) = [] := by
    refine List.flatMap_eq_nil_iff.mpr fun g hg => ?_
    obtain ⟨j, hj, rfl⟩ := List.mem_map.mp hg
    have hmem : j ∈ Job.ofUnit u (c.env u).schema := hjobs ▸ List.mem_append_left _ hj
    obtain ⟨i, hi⟩ := List.mem_iff_getElem?.mp (precompiled_eq hreg u ▸
      List.mem_map_of_mem (f := Job.prepared (c.env u) u) hmem)
    exact Job.promoted_of_role hmem (hroles j hj) (live_of_success hreg hmode h hsuccess hi).1
  rw [promoted, precompiled_eq hreg, hjobs, List.map_append, List.flatMap_append, hnone]
  exact List.flatMap_singleton _ _

theorem members_of_success {before : List Job}
    (hjobs : Job.ofUnit u (c.env u).schema = before ++ [Job.eventGraphOf u (c.env u).schema])
    (hroles : ∀ j ∈ before, j.work.role ≠ .eventGraph) (name : String) :
    cls.layout.members.get? name = (((c.env u).schema.members.get? name).map ClassLayout.slotOf).or
      (((((Job.eventGraphOf u (c.env u).schema).prepared (c.env u) u).work.terms.terms.filterMap
        (SymbolTable.promotion? ((Job.eventGraphOf u (c.env u).schema).prepared (c.env u) u).work.terms
          (((Job.eventGraphOf u (c.env u).schema).prepared (c.env u) u).promotesLocals
            (c.env u)))).find? fun m => m.name = name).map
            fun m => ⟨m.name, m.type, .persistentFrame, m.default⟩) := by
  have hlayout : cls.layout.members = ((c.layout u).addPromoted (c.promoted u)).members := by
    rw [eq_finished hmode h]
    rfl
  have hnamed : (c.env u).schema.Named := Schema.ofUnit_named u
  rw [hlayout, ClassLayout.get?_addPromoted, members_layout, ClassLayout.get?_ofSchema hnamed,
    promoted_of_success hreg hmode h hsuccess hjobs hroles, Job.promoted, SymbolTable.promotedMembers,
    SymbolTable.find?_foldl_promote, List.nil_append]

/-- What is known of the slots of an event graph and where the class keeps them. -/
theorem slots_of_success {k : Nat} {g : Job} {main : CompiledFunction}
    (hg : (c.precompiled u)[k]? = some g) (hrole : g.work.role = .eventGraph)
    (hmain : cls.functions[k]? = some main) :
    g.work.terms.Orderly ∧ main.symbols =
      .ofTerms g.work.terms g.signature c.options.persistentEventGraphFrame ∧
    (∀ {i : TermId} {a : Term}, g.work.terms.get? i = some a → a.kind = .persistentFrame →
      ∃ info ∈ (EventGraph.ofUnit u (c.env u).schema).1.events.values, ∃ p ∈ info.params,
        a.name = slotName info.spec.name p.name ∧ a.type = p.type) ∧
    (∀ info ∈ (EventGraph.ofUnit u (c.env u).schema).1.events.values, ∀ p ∈ info.params, ∃ i a,
      g.work.terms.get? i = some a ∧
      a.kind = .persistentFrame ∧ a.name = slotName info.spec.name p.name) ∧
    ∀ name, cls.layout.members.get? name = (((c.env u).schema.members.get? name).map ClassLayout.slotOf).or
      (((g.work.terms.terms.filterMap
        (SymbolTable.promotion? g.work.terms c.options.persistentEventGraphFrame)).find?
        fun m => m.name = name).map fun m => ⟨m.name, m.type, .persistentFrame, m.default⟩) := by
  obtain ⟨j, hj, rfl⟩ : ∃ j, (Job.ofUnit u (c.env u).schema)[k]? = some j ∧
    j.prepared (c.env u) u = g := by
    rw [precompiled_eq hreg, List.getElem?_map] at hg
    exact Option.map_eq_some_iff.mp hg
  rw [(Job.prepared_same (c.env u) u j).role] at hrole
  obtain ⟨rfl, before, hjobs, hroles⟩ := Job.ofUnit_of_role (List.mem_of_getElem? hj) hrole
  obtain ⟨hv, _, _, _, f, hf, hlive, _⟩ := live_of_success hreg hmode h hsuccess hg
  cases hmain.symm.trans hf
  obtain ⟨_, hsymbols, _⟩ := function_of_compile hreg hmode h hg hmain hlive
  have hpromotes : ((Job.eventGraphOf u (c.env u).schema).prepared (c.env u) u).promotesLocals (c.env u) =
      c.options.persistentEventGraphFrame := by
    rw [Job.promotesLocals, (Job.prepared_same (c.env u) u _).role, decide_eq_true hrole, Bool.true_and]
    rfl
  have hmembers := members_of_success hreg hmode h hsuccess hjobs hroles
  rw [hpromotes] at hsymbols hmembers
  have hterms := (Job.ofUnit_initial (List.mem_of_getElem? hj)).terms
  have hgraph : (Job.eventGraphOf u (c.env u).schema).work.graph =
    (EventGraph.ofUnit u (c.env u).schema).1.graph :=
    (Job.eventGraphOf_noted u (c.env u).schema).graph
  obtain ⟨_, hknown, _⟩ := EventGraph.ofUnit_consolidated u (c.env u).schema
  refine ⟨Job.orderly_prepared hv Job.eventGraphOf_orderly, hsymbols, ?_, ?_, hmembers⟩
  · intro i a ha hk
    obtain ⟨id, n, spec, hn, hspec, q, hq, hname, htype⟩ := Job.slot_prepared hterms hv ha hk
    rw [hgraph] at hn
    obtain ⟨info, hget, rfl⟩ := Job.complete_of_clean hv id n spec hn hspec
    obtain ⟨hspecname, n', hn', _, hparams⟩ := hknown _ info hget
    cases hn.symm.trans hn'
    have hparam : (⟨q.2.name, q.2.type, .input⟩ : Param) ∈ info.params := by
      rw [hparams]
      exact List.mem_map.mpr ⟨q, hq, rfl⟩
    exact ⟨info, OrderedMap.mem_values.mpr ⟨_, hget⟩, _, hparam, hspecname.symm ▸ hname, htype⟩
  · intro info hinfo p hp
    obtain ⟨name, hget⟩ := OrderedMap.mem_values.mp hinfo
    obtain ⟨_, n, hn, hk, hparams⟩ := hknown name info hget
    rw [hparams] at hp
    obtain ⟨q, hq, rfl⟩ := List.mem_map.mp hp
    exact Job.exists_slot hterms hv (hgraph ▸ hn) hk hq

theorem eventGraph_of_event {info : EventInfo}
    (hinfo : info ∈ (EventGraph.ofUnit u (c.env u).schema).1.events.values) :
    ∃ (k : Nat) (g : Job) (main : CompiledFunction), (c.precompiled u)[k]? = some g ∧
      g.work.role = .eventGraph ∧
      cls.functions[k]? = some main := by
  obtain ⟨before, after, hjobs, _⟩ := precompiled_of_event hreg hinfo
  have hg : (c.precompiled u)[(before ++ Job.ofEvent info :: after).length]? =
      some ((Job.eventGraphOf u (c.env u).schema).prepared (c.env u) u) := by
    rw [hjobs]
    simp
  obtain ⟨main, hmain, _⟩ := (live_of_success hreg hmode h hsuccess hg).2.2.2.2
  refine ⟨_, _, main, hg, ?_, hmain⟩
  rw [(Job.prepared_same _ _ _).role, (Job.eventGraphOf_noted _ _).role]
  rfl

end Success

/-- Each parameter of an event and each local of the event graph that outlives a call is held in a member
of the class. These members are apart just if their names are. -/
theorem compile_apart_iff (hreg : c.registry = .standard) (hmode : c.options.mode = .full)
    (h : c.compile u = .ok cls) (hsuccess : cls.isSuccess = true) :
    (∀ info ∈ (EventGraph.ofUnit u (c.env u).schema).1.events.values, ∀ p ∈ info.params,
      ∃ (k : Nat) (g : Job) (main : CompiledFunction), (c.precompiled u)[k]? = some g ∧
        g.work.role = .eventGraph ∧
        cls.functions[k]? = some main ∧ info.HeldIn p main g.work.terms (slotName info.spec.name p.name)) ∧
    ∀ {k : Nat} {g : Job} {main : CompiledFunction}, (c.precompiled u)[k]? = some g →
      g.work.role = .eventGraph →
      cls.functions[k]? = some main →
      (c.options.persistentEventGraphFrame = true → ∀ {i : TermId} {a : Term},
        g.work.terms.get? i = some a → a.kind = .local →
        main.Keeps i (SymbolTable.frameName a.name)) ∧
      ((EventGraph.ofUnit u (c.env u).schema).1.Apart main g.work.terms cls.layout.members ↔
        (EventGraph.ofUnit u (c.env u).schema).1.NamedApart g.work.terms
          c.options.persistentEventGraphFrame (c.env u).schema) := by
  constructor
  · intro info hinfo p hp
    obtain ⟨k, g, main, hg, hrole, hmain⟩ := eventGraph_of_event hreg hmode h hsuccess hinfo
    obtain ⟨horderly, hsymbols, _, hheld, _⟩ := slots_of_success hreg hmode h hsuccess hg hrole hmain
    exact ⟨k, g, main, hg, hrole, hmain,
      (EventGraph.heldIn_iff horderly hsymbols (hheld info hinfo p hp)).mpr rfl⟩
  · intro k g main hg hrole hmain
    obtain ⟨horderly, hsymbols, hslots, hheld, hmembers⟩ :=
      slots_of_success hreg hmode h hsuccess hg hrole hmain
    refine ⟨fun hpromotes i a ha hk => ?_, EventGraph.apart_iff horderly hsymbols hslots hheld hmembers⟩
    exact (EventGraph.keeps_local horderly hsymbols ha hk).mpr ⟨hpromotes, rfl⟩

theorem eventGraph_bell : ∃ g : Job, (precompiled {} bell)[2]? = some g ∧ g.work.role = .eventGraph ∧
    (EventGraph.ofUnit bell bellEnv.schema).1.requested g.work.terms true =
      [("Hit_force", ⟨.int, .single⟩)] := by
  have hjobs : (precompiled {} bell)[2]?.map (fun g =>
      (g.work.role, (EventGraph.ofUnit bell bellEnv.schema).1.requested g.work.terms true)) =
      some (.eventGraph, [("Hit_force", ⟨.int, .single⟩)]) := by
    rw [precompiled, registered, env_bell]
    cbv
  obtain ⟨g, hg, hfacts⟩ := Option.map_eq_some_iff.mp hjobs
  exact ⟨g, hg, congrArg Prod.fst hfacts, congrArg Prod.snd hfacts⟩

theorem bell_apart :
    ∃ (cls : CompiledClass) (g : Job) (main : CompiledFunction), compile {} bell = .ok cls ∧
      cls.isSuccess = true ∧
    (precompiled {} bell)[2]? = some g ∧ g.work.role = .eventGraph ∧ cls.functions[2]? = some main ∧
    (∃ info ∈ (EventGraph.ofUnit bell bellEnv.schema).1.events.values, info.spec.name = "Hit") ∧
    (EventGraph.ofUnit bell bellEnv.schema).1.Apart main g.work.terms cls.layout.members := by
  obtain ⟨cls, hcls, hsuccess⟩ := compile_bell
  obtain ⟨g, hg, hrole, hrequested⟩ := eventGraph_bell
  obtain ⟨main, hmain, _⟩ := (live_of_success (c := {}) rfl rfl hcls hsuccess hg).2.2.2.2
  have hapart := ((compile_apart_iff (c := {}) rfl rfl hcls hsuccess).2 hg hrole hmain).2
  rw [env_bell] at hapart
  obtain ⟨info, hvalues, hname, hparams, _⟩ := event_bell
  refine ⟨cls, g, main, hcls, hsuccess, hg, hrole, hmain, ⟨info, by simp [hvalues], hname⟩,
    hapart.mpr ⟨?_, ?_, ?_⟩⟩
  · intro a b p q ha hp hb hq hne
    rw [hvalues, List.mem_singleton] at ha hb
    subst ha hb
    rw [hparams, List.mem_singleton] at hp hq
    exact absurd (hp ▸ hq ▸ rfl) hne
  · rw [hrequested]
    exact List.forall_mem_singleton.mpr rfl
  · rw [hrequested]
    simp

def dialPage : ScriptGraph where
  name := "Events"
  slots :=
    [some ((ScriptNode.event "Tap").addPorts [.dataOut "up_by" ⟨.int, .single⟩]),
      some { (ScriptNode.event "Tap_up").addPorts [.dataOut "by" ⟨.int, .single⟩] with order := 1 }]
  nextOrder := 2

def dial : CompilationUnit where
  name := "Dial"
  fields := [{ name := "Tap_up_by", type := ⟨.string, .single⟩ }]
  eventGraphs := [dialPage]

def dialEnv : Env where
  schema :=
    { name := "Dial"
      members := .ofList [("Tap_up_by", ⟨"Tap_up_by", ⟨.string, .single⟩, false, none⟩)]
      events := ["Tap", "Tap_up"]
      eventGraphFunction := "ExecuteEventGraph_Dial" }

theorem schema_dial : Schema.ofUnit dial = (dialEnv.schema, []) := by
  have hgraph : Schema.eventGraphName "Dial" = "ExecuteEventGraph_Dial" := rfl
  have hevents : Schema.eventNames [dialPage] = ["Tap", "Tap_up"] := by cbv
  simp only [Schema.ofUnit, dial, hgraph, hevents]
  rfl

theorem env_dial : env {} dial = dialEnv := env_of_schema schema_dial

theorem compile_dial :
    ∃ cls, compile {} dial = .ok cls ∧ cls.isSuccess = true := success_of_schema schema_dial (by cbv)

theorem eventGraph_dial : ∃ g : Job, (precompiled {} dial)[2]? = some g ∧ g.work.role = .eventGraph := by
  have hjobs : (precompiled {} dial)[2]?.map (fun g => g.work.role) = some .eventGraph := by
    rw [precompiled, registered, env_dial]
    cbv
  exact Option.map_eq_some_iff.mp hjobs

/-- The parameters of both events are held in one member, and that member is the field. -/
theorem dial_aliased :
    ∃ (cls : CompiledClass) (g : Job) (main : CompiledFunction) (tap tapUp : EventInfo) (p q : Param),
    compile {} dial = .ok cls ∧ cls.isSuccess = true ∧ (precompiled {} dial)[2]? = some g ∧
      g.work.role = .eventGraph ∧
    cls.functions[2]? = some main ∧ (EventGraph.ofUnit dial dialEnv.schema).1.events.values =
      [tap, tapUp] ∧
    p ∈ tap.params ∧ q ∈ tapUp.params ∧ (tap.spec.name, p.name) ≠ (tapUp.spec.name, q.name) ∧
    tap.HeldIn p main g.work.terms "Tap_up_by" ∧ tapUp.HeldIn q main g.work.terms "Tap_up_by" ∧
    cls.layout.members.get? "Tap_up_by" = some ⟨"Tap_up_by", ⟨.string, .single⟩, .field, none⟩ ∧
    ¬ (EventGraph.ofUnit dial dialEnv.schema).1.Apart main g.work.terms cls.layout.members := by
  obtain ⟨cls, hcls, hsuccess⟩ := compile_dial
  obtain ⟨g, hg, hrole⟩ := eventGraph_dial
  obtain ⟨main, hmain, _⟩ := (live_of_success (c := {}) rfl rfl hcls hsuccess hg).2.2.2.2
  obtain ⟨horderly, hsymbols, _, hheld, hmembers⟩ :=
    slots_of_success (c := {}) rfl rfl hcls hsuccess hg hrole hmain
  rw [env_dial] at hheld hmembers
  have hevents : (EventGraph.ofUnit dial dialEnv.schema).1.events.values.map
      (fun info => (info.spec.name, info.params)) =
      [("Tap", [⟨"up_by", ⟨.int, .single⟩, .input⟩]),
        ("Tap_up", [⟨"by", ⟨.int, .single⟩, .input⟩])] := by cbv
  obtain ⟨tap, rest, hvalues, htap, hrest⟩ := List.map_eq_cons_iff.mp hevents
  obtain ⟨tapUp, rfl, htapUp⟩ := List.map_eq_singleton_iff.mp hrest
  rw [Prod.mk.injEq] at htap htapUp
  have hp : (⟨"up_by", ⟨.int, .single⟩, .input⟩ : Param) ∈ tap.params := htap.2 ▸ List.mem_singleton_self _
  have hq : (⟨"by", ⟨.int, .single⟩, .input⟩ : Param) ∈ tapUp.params :=
    htapUp.2 ▸ List.mem_singleton_self _
  have hfirst : tap.HeldIn ⟨"up_by", ⟨.int, .single⟩, .input⟩ main g.work.terms "Tap_up_by" := by
    refine (EventGraph.heldIn_iff horderly hsymbols (hheld tap (by simp [hvalues]) _ hp)).mpr ?_
    rw [htap.1]
    rfl
  have hsecond : tapUp.HeldIn ⟨"by", ⟨.int, .single⟩, .input⟩ main g.work.terms "Tap_up_by" := by
    refine (EventGraph.heldIn_iff horderly hsymbols (hheld tapUp (by simp [hvalues]) _ hq)).mpr ?_
    rw [htapUp.1]
    rfl
  have hne : (tap.spec.name, "up_by") ≠ (tapUp.spec.name, "by") := by
    rw [htap.1, htapUp.1]
    decide
  refine ⟨cls, g, main, tap, tapUp, _, _, hcls, hsuccess, hg, hrole, hmain, hvalues, hp, hq, hne,
    hfirst, hsecond, ?_, fun hapart => ?_⟩
  · rw [hmembers]
    rfl
  · exact hapart.params (by simp [hvalues]) hp (by simp [hvalues]) hq hne hfirst hsecond

end Compiler

end VisualScript
