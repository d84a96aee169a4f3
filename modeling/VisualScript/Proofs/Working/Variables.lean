import VisualScript.Proofs.Code.Sections
import VisualScript.Proofs.Working.Jumps
import VisualScript.Proofs.Working.Temporaries

namespace VisualScript

def NodeKind.variableName? : NodeKind → Option String
  | .variableGet name | .variableSet name => some name
  | _ => none

theorem NodeKind.variableName?_eq_some {kind : NodeKind} {name : String} :
    kind.variableName? = some name ↔ kind = .variableGet name ∨ kind = .variableSet name := by
  cases kind <;> simp [variableName?]

def Node.variablePorts (n : ScriptNode) : List UInt16 := match n.kind with
  | .variableGet _ => (n.portsWhere .data .output).map Prod.fst
  | .variableSet _ => (n.findPort? "output" .output).toList
  | _ => []

namespace TermTable

def member? (t : TermTable) (schema : Schema) (name : String) : Option TermId :=
  (schema.member? name).bind fun m => t.find? .member m.name

def resolved? (t : TermTable) (schema : Schema) (name : String) : Option TermId :=
  (t.find? .local name).or (t.member? schema name)

/-- The term that a name denotes: one of the first locals, as many as are given, or else a member. -/
def denoted? (t : TermTable) (schema : Schema) (count : Nat) (name : String) : Option TermId :=
  ((((t.ofKind .local).take count).find? fun a => a.declared = name).map Term.id).or
    (t.member? schema name)

variable {t : TermTable} {schema : Schema} {kind : TermKind} {name : String} {i : TermId}

theorem Indexed.find?_eq (ht : t.Indexed) (ho : t.Orderly) (hk : kind ≠ .literal) :
    t.find? kind name = ((t.ofKind kind).find? fun a => a.declared = name).map Term.id := by
  have hplace : t.find? kind name = t.terms.findIdx? fun a => a.kind = kind && a.declared = name := by
    rw [ht kind name hk, Declaration.place?, roll, List.findIdx?_map]
    rfl
  have hfilter : ((t.ofKind kind).find? fun a => a.declared = name) =
      t.terms.find? fun a => a.kind = kind && a.declared = name := by
    simp [ofKind, List.find?_filter]
  rw [hplace, hfilter]
  cases hfound : t.terms.find? fun a => a.kind = kind && a.declared = name with
  | none =>
      rw [List.findIdx?_eq_none_iff.mpr fun a ha => Bool.eq_false_iff.mpr
        (List.find?_eq_none.mp hfound a ha)]
      rfl
  | some a =>
      obtain ⟨hp, i, hi, ha, hfirst⟩ := List.find?_eq_some_iff_getElem.mp hfound
      have hid : a.id = i := ho.ids (by rw [get?, List.getElem?_eq_getElem hi, ha])
      have hindex : t.terms.findIdx? (fun a => a.kind = kind && a.declared = name) = some i :=
        List.findIdx?_eq_some_iff_getElem.mpr ⟨hi, ha ▸ hp,
          fun k hk => Bool.eq_false_iff.mp (Bool.not_eq_true' _ ▸ hfirst k hk)⟩
      rw [hindex, Option.map_some, hid]

section Denoted

variable (ht : t.Indexed) (ho : t.Orderly) {known new : List (String × PinType)}
    (hlocals : t.declares .local = known ++ new)

include hlocals

theorem mem_take_ofKind :
    (((t.ofKind .local).take known.length).find? fun a => a.declared = name).isSome = true ↔
    name ∈ known.map Prod.fst := by
  have hknown : ((t.ofKind .local).take known.length).map (fun a => (a.declared, a.type)) = known := by
    rw [List.map_take, map_ofKind, hlocals, List.take_left]
  have hnames : name ∈ known.map Prod.fst ↔ ∃ a ∈ (t.ofKind .local).take known.length,
      a.declared = name := by
    conv => lhs; rw [← hknown, List.map_map]
    exact List.mem_map
  simp [hnames, List.find?_isSome]

theorem denoted?_of_notMem (hname : name ∉ known.map Prod.fst) :
    t.denoted? schema known.length name = t.member? schema name := by
  have hnone := mt (mem_take_ofKind hlocals).mp hname
  rw [Bool.not_eq_true, Option.isSome_eq_false_iff, Option.isNone_iff_eq_none] at hnone
  rw [denoted?, hnone]
  rfl

include ht ho

theorem denoted?_of_mem (hname : name ∈ known.map Prod.fst) :
    t.denoted? schema known.length name = t.find? .local name := by
  obtain ⟨a, ha⟩ := Option.isSome_iff_exists.mp ((mem_take_ofKind hlocals).mpr hname)
  rw [denoted?, ha, ht.find?_eq ho (by decide),
    ← List.take_append_drop known.length (t.ofKind .local), List.find?_append, ha]
  rfl

theorem denoted?_eq_iff {used : List (String × PinType)}
    (h : if name ∈ (known ++ used).map Prod.fst then t.find? .local name = some i
      else t.member? schema name = some i) :
    t.denoted? schema known.length name = some i ↔ name ∈ known.map Prod.fst ∨
      name ∉ used.map Prod.fst := by
  simp only [List.map_append, List.mem_append] at h
  by_cases hknown : name ∈ known.map Prod.fst
  · rw [if_pos (Or.inl hknown)] at h
    exact iff_of_true ((denoted?_of_mem ht ho hlocals hknown).trans h) (Or.inl hknown)
  · rw [denoted?_of_notMem hlocals hknown, or_iff_right hknown]
    by_cases hused : name ∈ used.map Prod.fst
    · rw [if_pos (Or.inr hused)] at h
      -- What is found as a local is never found as a member.
      refine iff_of_false (fun hmember => ?_) (not_not_intro hused)
      obtain ⟨m, _, hm⟩ := Option.bind_eq_some_iff.mp hmember
      cases (ht.find?_inj (by decide) (by decide) h hm).1
    · rw [if_neg (not_or_intro hknown hused)] at h
      exact iff_of_true h hused

end Denoted

theorem Indexed.resolved?_cases (ht : t.Indexed) (h : t.resolved? schema name = some i) :
    if name ∈ (t.declares .local).map Prod.fst then t.find? .local name = some i
      else t.member? schema name = some i := by
  split
  · next hname =>
      obtain ⟨k, hk⟩ := Option.isSome_iff_exists.mp ((ht.find?_isSome (by decide)).mpr hname)
      rw [resolved?, hk] at h
      exact hk.trans h
  · next hname =>
      rw [resolved?, (ht.find?_eq_none (by decide)).mpr hname] at h
      exact h

theorem resolved?_congr {t' : TermTable} (h : t'.declared = t.declared) :
    t'.resolved? schema name = t.resolved? schema name := by
  simp only [resolved?, member?, find?, h]

theorem Changes.member? {sites : PortRef → Prop} {slots : TermKind → String → PinType → Prop}
    {t' : TermTable} (h : Changes sites slots t t') (ht : t.Indexed)
    (hi : t.member? schema name = some i) : t'.member? schema name = some i := by
  obtain ⟨m, hm, hi⟩ := Option.bind_eq_some_iff.mp hi
  exact Option.bind_eq_some_iff.mpr ⟨m, hm, Changes.find? h ht (by decide) hi⟩

end TermTable

namespace Build

open Working

variable {env : Env} {name : String} {id : NodeId} {n : ScriptNode} {w v : Working} {i : TermId}

theorem variableTerm?_resolves (hv : (variableTerm? env name id w).2.hasErrors = false)
    (hi : (variableTerm? env name id w).1 = some i) :
    (variableTerm? env name id w).2.terms.resolved? env.schema name = some i := by
  rw [TermTable.resolved?,
    (variableTerm?_respects (fun _ _ => classSlot_respects rfl _ _ id) env name w).find? rfl]
  simp only [variableTerm?, bind_apply, get_apply] at hv hi ⊢
  cases hlocal : w.terms.find? .local name with
  | some k =>
      rw [hlocal] at hi
      exact hi
  | none =>
      simp only [hlocal] at hv hi ⊢
      cases hm : env.schema.member? name with
      | none =>
          rw [hm] at hi
          cases hi
      | some m =>
          simp only [hm, bind_apply, pure_apply] at hv hi ⊢
          obtain ⟨r, hr⟩ := classSlot_of_valid hv
          rw [classSlot_ok hr] at hi ⊢
          rw [Option.none_or, TermTable.member?, hm]
          exact (TermTable.find?_member hr).trans hi

theorem variableTerm?_of_resolved (hi : w.terms.resolved? env.schema name = some i) :
    variableTerm? env name id w = (some i, w) := by
  rw [TermTable.resolved?] at hi
  simp only [variableTerm?, bind_apply, get_apply]
  cases hlocal : w.terms.find? .local name with
  | some k =>
      rw [hlocal] at hi
      cases hi
      rfl
  | none =>
      rw [hlocal, Option.none_or] at hi
      obtain ⟨m, hm, hfind⟩ := Option.bind_eq_some_iff.mp hi
      have hmember : w.terms.member .member m.name m.type = .ok (i, w.terms) := by
        have hdeclared : w.terms.declared.get? (.member, m.name) = some i := hfind
        rw [TermTable.member, hdeclared]
      simp only [hm, bind_apply, classSlot_ok hmember]
      rfl

theorem variableOf_resolves (hv : (Handler.variableOf env name id n w).2.hasErrors = false) :
    ∃ i, (Handler.variableOf env name id n w).1 = some i ∧
      (Handler.variableOf env name id n w).2.terms.resolved? env.schema name = some i := by
  simp only [Handler.variableOf, bind_apply] at hv ⊢
  cases hfound : (variableTerm? env name id w).1 with
  | some i =>
      rw [hfound] at hv
      exact ⟨i, rfl, variableTerm?_resolves hv hfound⟩
  | none =>
      rw [hfound] at hv
      have hreported := hasErrors_report (.unknownVariable n.title name) rfl
        (variableTerm? env name id w).2 (some id) none
      exact absurd (hv.symm.trans hreported) Bool.false_ne_true

theorem forM_bind_net? (id : NodeId) (i : TermId) (ports : List (UInt16 × Port)) (w : Working) :
    ((ports.forM fun p => bind ⟨id, p.1⟩ i) w).2.terms.declared = w.terms.declared ∧
      ∀ index, index ∈ ports.map Prod.fst ∨ w.terms.net? ⟨id, index⟩ = some i →
        ((ports.forM fun p => bind ⟨id, p.1⟩ i) w).2.terms.net? ⟨id, index⟩ = some i := by
  induction ports generalizing w with
  | nil => exact ⟨rfl, fun index h => h.resolve_left List.not_mem_nil⟩
  | cons p rest ih =>
      obtain ⟨hdeclared, hnet⟩ := ih { w with terms := w.terms.bind ⟨id, p.1⟩ i }
      refine ⟨hdeclared, fun index h => hnet index ?_⟩
      have hbound : (w.terms.bind ⟨id, p.1⟩ i).net? ⟨id, index⟩ =
          if (⟨id, index⟩ : PortRef) = ⟨id, p.1⟩ then some i else w.terms.net? ⟨id, index⟩ :=
            OrderedMap.get?_insert _ _ _ _
      rw [List.map_cons, List.mem_cons] at h
      rcases h with (rfl | hrest) | h
      · exact Or.inr (hbound.trans (if_pos rfl))
      · exact Or.inl hrest
      · exact Or.inr (by rw [hbound, h, ite_self])

end Build

namespace Working

def locals (w : Working) : List LocalDecl :=
  (((w.entry.bind w.graph.node?).bind fun n => n.kind.entrySpec?).map EntrySpec.locals).getD []

def denoted? (w : Working) (env : Env) (name : String) : Option TermId :=
  w.terms.denoted? env.schema w.locals.length name

/-- Whether a name is that of a local of the entry, or no given node makes a local of that name. -/
def isClear (w : Working) (nodes : List (NodeId × ScriptNode)) (name : String) : Bool :=
  w.locals.any (fun l => l.name = name) || nodes.all fun x => x.2.temporaries.all fun d => d.1 ≠ name

variable {env : Env} {name : String} {id : NodeId} {n : ScriptNode} {w v : Working} {i : TermId}

theorem isClear_iff {nodes : List (NodeId × ScriptNode)} : w.isClear nodes name = true ↔
    name ∈ (w.locals.map fun l => (l.name, l.type)).map Prod.fst ∨
      name ∉ (nodes.flatMap fun x => x.2.temporaries).map Prod.fst := by
  rw [isClear, Bool.or_eq_true]
  refine or_congr ?_ ?_
  · simp [List.any_eq_true]
  · simp only [List.all_eq_true, decide_eq_true_eq, List.mem_map, List.mem_flatMap, not_exists, not_and]
    exact ⟨fun h d ⟨x, hx, hd⟩ => h x hx d hd, fun h x hx d hd => h d ⟨x, hx, hd⟩⟩

/-- A node binds the ports of its variable to what the name is taken for. -/
theorem registerNode_variable (hn : w.graph.node? id = some n) (hname : n.kind.variableName? = some name)
    (hv : (Registry.standard.registerNode env id w).2.hasErrors = false) :
    ∃ i, (∀ index ∈ n.variablePorts,
      (Registry.standard.registerNode env id w).2.terms.net? ⟨id, index⟩ = some i) ∧
      (Registry.standard.registerNode env id w).2.terms.resolved? env.schema name = some i := by
  rcases NodeKind.variableName?_eq_some.mp hname with hk | hk
  · rw [registerNode_eq hn (by rw [Handler.handler?_standard, hk])] at hv ⊢
    simp only [Handler.variableGet, hk, Build.bind_apply, Node.variablePorts] at hv ⊢
    have hof : (Handler.variableOf env name id n w).2.hasErrors = false := by
      cases hfound : (Handler.variableOf env name id n w).1 <;> rw [hfound] at hv
      · exact hv
      · exact (Build.Respects.forM (R := Frame) (fun p w => w.frame_of_terms _) _ _).hasErrors hv
    obtain ⟨i, hi, hresolved⟩ := Build.variableOf_resolves hof
    obtain ⟨hdeclared, hnet⟩ :=
      Build.forM_bind_net? id i (n.portsWhere .data .output) (Handler.variableOf env name id n w).2
    rw [hi]
    refine ⟨i, fun index hindex => hnet index (Or.inl hindex), ?_⟩
    exact (TermTable.resolved?_congr hdeclared).trans hresolved
  · rw [registerNode_eq hn (by rw [Handler.handler?_standard, hk])] at hv ⊢
    simp only [Handler.variableSet, hk, Build.bind_apply, Node.variablePorts] at hv ⊢
    have hof : (Handler.variableOf env name id n w).2.hasErrors = false := by
      cases hfound : (Handler.variableOf env name id n w).1 <;> cases hport :
        n.findPort? "output" .output <;>
        rw [hfound, hport] at hv <;> exact hv
    obtain ⟨i, hi, hresolved⟩ := Build.variableOf_resolves hof
    rw [hi]
    cases hport : n.findPort? "output" .output with
    | none => exact ⟨i, List.forall_mem_nil _, hresolved⟩
    | some output =>
        exact ⟨i, List.forall_mem_singleton.mpr
          ((OrderedMap.get?_insert _ _ _ _).trans (if_pos rfl)), hresolved⟩

/-- When it does so, the entry and the nodes before it have declared their locals. -/
theorem registerTerms_variable (env : Env) (hn : w.graph.node? id = some n)
    (hname : n.kind.variableName? = some name) (ht : w.terms.Orderly) (hindexed : w.terms.Indexed)
    (hfree : ∀ x ∈ w.graph.nodes, Registry.standard.isEarly x.2 = false →
      ∀ index, w.terms.net? ⟨x.1, index⟩ = none)
    (hv : (w.registerTerms .standard env false).hasErrors = false) :
    ∃ i, (∀ index ∈ n.variablePorts, (w.registerTerms .standard env false).terms.net? ⟨id, index⟩ =
      some i) ∧
      if name ∈ (w.terms.declares .local ++
        (w.graph.nodes.takeWhile fun x => x.1 ≠ id).flatMap fun x => x.2.temporaries).map Prod.fst
        then (w.registerTerms .standard env false).terms.find? .local name = some i
        else (w.registerTerms .standard env false).terms.member? env.schema name = some i := by
  have hearly : Registry.standard.isEarly n = false := by
    rcases NodeKind.variableName?_eq_some.mp hname with hk | hk <;> rw [isEarly_eq, hk] <;> rfl
  obtain ⟨v, hbefore, hfirst, hlast⟩ := registerTerms_at env hn hearly
  have hn' : v.graph.node? id = some n := hfirst.graph ▸ hn
  have hstep := registerNode_registers hn' env
  have hvalid := hlast.toFrame.hasErrors hv
  have hv' := hstep.toFrame.hasErrors hvalid
  have hsub : (w.graph.nodes.takeWhile fun x => x.1 ≠ id).Sublist w.graph.nodes := List.takeWhile_sublist _
  have hlocals : v.terms.declares .local = w.terms.declares .local ++
      (w.graph.nodes.takeWhile fun x => x.1 ≠ id).flatMap fun x => x.2.temporaries := by
    rw [hbefore] at hv' ⊢
    refine registerNodes_temporaries (fun x hx => Graph.mem_nodes.mp (hsub.subset hx)) ?_ ht
      (fun x hx => hfree x (hsub.subset hx)) hv'
    exact w.graph.nodup_nodes.sublist (hsub.map _)
  -- The node makes no local of its own, so it sees those of the entry and of the nodes before it.
  have hsilent : (Registry.standard.registerNode env id v).2.terms.declares .local =
      v.terms.declares .local := by
    refine registerNode_silent hn' ?_
    rcases NodeKind.variableName?_eq_some.mp hname with hk | hk <;> rw [hk] <;> rfl
  obtain ⟨i, hports, hresolved⟩ := registerNode_variable hn' hname hvalid
  have hindexed' := TermTable.Changes.indexed (hstep.terms hvalid)
    (TermTable.Changes.indexed (hfirst.terms hv') hindexed)
  have horderly := TermTable.Changes.orderly (hstep.terms hvalid)
    (TermTable.Changes.orderly (hfirst.terms hv') ht)
  have hcases := hindexed'.resolved?_cases hresolved
  rw [hsilent, hlocals] at hcases
  refine ⟨i, fun index hindex => ?_, ?_⟩
  · exact (TermTable.Changes.net? (hlast.terms hv) horderly fun hne => hne rfl).trans (hports index hindex)
  · split at hcases
    · next hmem =>
        rw [if_pos hmem]
        exact TermTable.Changes.find? (hlast.terms hv) hindexed' (by decide) hcases
    · next hmem =>
        rw [if_neg hmem]
        exact TermTable.Changes.member? (hlast.terms hv) hindexed' hcases

theorem Grows.resolved? (hv : w.Grows v) {schema : Schema} (hi : w.terms.resolved? schema name = some i) :
    v.terms.resolved? schema name = some i := by
  rw [TermTable.resolved?] at hi
  rw [TermTable.resolved?, hv.find? rfl]
  cases hlocal : w.terms.find? .local name with
  | some k =>
      rw [hlocal] at hi
      exact hi
  | none =>
      rw [hlocal, Option.none_or] at hi
      obtain ⟨m, hm, hfind⟩ := Option.bind_eq_some_iff.mp hi
      exact Option.bind_eq_some_iff.mpr ⟨m, hm, hv.terms.declared hfind⟩

end Working

theorem Registry.emitNode_variable (env : Env) {name : String} {id : NodeId} {n : ScriptNode}
    {w : Working} {i : TermId} (hn : w.graph.node? id = some n)
    (hname : n.kind.variableName? = some name) (hi : w.terms.resolved? env.schema name = some i) :
    (∀ dest src, .assign dest src ∈ (standard.emitNode env id w).1 → dest = i) ∧
      (n.kind = .variableSet name → (n.findPort? "value" .input).isSome = true →
        ∃ src, .assign i src ∈ (standard.emitNode env id w).1) := by
  have hjump (v : Working) (dest src : TermId) : v.followJump id "then" ≠ .assign dest src := by
    rw [Working.followJump]
    cases v.follow id "then" <;> simp [Statement.jump]
  rcases NodeKind.variableName?_eq_some.mp hname with hk | hk
  · rw [emitNode_eq hn (by rw [Handler.handler?_standard, hk])]
    exact ⟨fun dest src h => absurd h List.not_mem_nil, fun h => absurd (hk.symm.trans h) (by simp)⟩
  · rw [emitNode_eq hn (by rw [Handler.handler?_standard, hk])]
    simp only [Handler.variableSet, hk, Build.bind_apply, Build.variableTerm?_of_resolved hi]
    cases n.findPort? "value" .input with
    | none =>
        refine ⟨fun dest src h => ?_, fun _ h => absurd h Bool.false_ne_true⟩
        exact absurd (List.mem_singleton.mp h).symm (hjump _ _ _)
    | some value =>
        refine ⟨fun dest src h => ?_, fun _ _ => ⟨_, List.mem_cons_self⟩⟩
        rcases List.mem_cons.mp h with he | h
        · exact (Statement.assign.inj he).1
        · exact absurd (List.mem_singleton.mp h).symm (hjump _ _ _)

namespace Build

variable {env : Env} {name : String} {id : NodeId} {n : ScriptNode} {w : Working} {i : TermId}
    {s : Schedule}

/-- A node that sets a variable assigns to what the name is taken for in the end. -/
theorem blocks_variable (s : Schedule) (hn : w.graph.node? id = some n)
    (hname : n.kind.variableName? = some name) (hi : w.terms.resolved? env.schema name = some i) :
    (∀ b ∈ (blocks .standard env s w).1, ∀ dest src, (id, .assign dest src) ∈ b.statements → dest = i) ∧
      (id ∈ s.linear → n.kind = .variableSet name → (n.findPort? "value" .input).isSome = true →
        ∃ src, ∃ b ∈ (blocks .standard env s w).1, (id, .assign i src) ∈ b.statements) := by
  have hcode (v : Working) (hv : w.Grows v) :=
    Registry.emitNode_variable env (hv.graph ▸ hn) hname (hv.resolved? hi)
  have hdest : ∀ b ∈ (blocks .standard env s w).1, ∀ t ∈ b.statements, t.1 = id →
      ∀ dest src, t.2 = .assign dest src → dest = i := by
    refine (forall_blocks (P := fun _ k c => k = id → ∀ dest src, c = .assign dest src → dest = i)
      (Q := fun _ _ => True) ?_ ?_).mpr
      fun _ _ _ _ => trivial
    · rintro _ _ c hmark _ dest src rfl
      cases hmark
    · refine fun _ _ k _ v hv => iff_true_intro ?_
      rintro c hc rfl dest src rfl
      exact (hcode v hv).1 dest src hc
  refine ⟨fun b hb dest src h => hdest b hb _ h rfl dest src rfl, fun hid hset hvalue => ?_⟩
  by_contra hnone
  -- Where no block assigns for the node, the code of the node does not, either.
  have hsilent : ∀ b ∈ (blocks .standard env s w).1, ∀ t ∈ b.statements, t.1 = id →
      t.2.isAssign = false := by
    rintro b hb ⟨k, c⟩ ht rfl
    cases c with
    | assign dest src => exact absurd ⟨src, b, hb, hdest b hb _ ht rfl dest src rfl ▸ ht⟩ hnone
    | _ => rfl
  have hall := (forall_blocks (P := fun _ k c => k = id → c.isAssign = false)
    (Q := fun _ k => k ≠ id) ?_ ?_).mp hsilent
  · exact hall id hid id (List.mem_append_right _ (List.mem_singleton_self id)) rfl
  · rintro _ _ c hmark _
    cases c <;> first | rfl | cases hmark
  · intro _ _ k _ v hv
    constructor
    · rintro h rfl
      obtain ⟨src, hsrc⟩ := (hcode v hv).2 hset hvalue
      exact absurd (h _ hsrc rfl) (by simp [Statement.isAssign])
    · exact fun hne c _ he => absurd he hne

theorem lines_variable (hs : w.schedule .standard = .ok s) (hn : w.graph.node? id = some n)
    (hname : n.kind.variableName? = some name)
    (hi : w.terms.resolved? env.schema name = some i) {φ : Statement → Statement}
      (hφ : Statement.KeepsReturns φ)
    {originOf : NodeId → Option Origin} {body : Body}
      (hbody : let linked := Body.link (blocks .standard env s w).1 originOf
      body = { linked with statements := linked.statements.map φ }) :
    (∀ dest src, (id, .assign dest src) ∈ body.lines → dest = i) ∧
      (Registry.standard.isPure n = false → n.kind = .variableSet name →
        (n.findPort? "value" .input).isSome = true →
        ∃ src, (id, .assign i src) ∈ body.lines) := by
  obtain ⟨hdest, hset⟩ := blocks_variable s hn hname hi
  rw [hbody, Body.lines_mapStatements]
  simp only [Statement.mem_map_assign hφ, Block.assign_mem_lines_link]
  refine ⟨fun dest src => fun ⟨b, hb, h⟩ => hdest b hb dest src h,
    fun hp => hset ((Graph.mem_linear hs).mpr ⟨n, hn, hp⟩)⟩

end Build

end VisualScript
