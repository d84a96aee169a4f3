import VisualScript.Proofs.Working.Declaring

namespace VisualScript

namespace Handler

open Build Working

variable {w : Working} {ports : List (UInt16 × Port)}

/-- The output of the function that an input of a result is stored in: results share it by name. -/
def resultTerm (p : Port) : Build TermId := do
  match (← get).terms.find? .output p.name with
  | some term => return term
  | none => onTerms fun t => t.add .output p.name p.type

theorem resultTerm_cases (p : Port) (w : Working) :
    (∃ t, w.terms.find? .output p.name = some t ∧ resultTerm p w = (t, w)) ∨
      (w.terms.find? .output p.name = none ∧ resultTerm p w =
        onTerms (fun t => t.add .output p.name p.type) w) := by
  cases hfind : w.terms.find? .output p.name with
  | some t =>
      refine Or.inl ⟨t, rfl, ?_⟩
      simp only [resultTerm, bind_apply, get_apply, hfind]
      rfl
  | none =>
      refine Or.inr ⟨rfl, ?_⟩
      simp only [resultTerm, bind_apply, get_apply, hfind]

theorem functionResult_register (env : Env) (id : NodeId) (n : ScriptNode) :
    functionResult.register env id n = (n.portsWhere .data .input).forM fun p => resultTerm p.2 >>=
      Build.bind ⟨id, p.1⟩ := by
  simp only [functionResult]
  refine congrArg (fun f => (n.portsWhere .data .input).forM f) (funext fun p => funext fun w => ?_)
  rcases resultTerm_cases p.2 w with ⟨t, hfind, hr⟩ | ⟨hfind, hr⟩
  · simp only [bind_apply, get_apply, hfind, hr]
  · simp only [bind_apply, get_apply, hfind, hr]

theorem resultTerm_registers (p : Port) :
    Respects (Registers (fun _ => False) fun _ _ _ => False) (resultTerm p) := by
  intro w
  rcases resultTerm_cases p w with ⟨t, _, hr⟩ | ⟨_, hr⟩
  · rw [hr]
    exact Std.Refl.refl w
  · rw [hr]
    exact add_registers rfl p.name p.type w

theorem forM_resultTerm_registers (id : NodeId) (ports : List (UInt16 × Port)) :
    Respects (Registers (fun q => ∃ p ∈ ports, q = ⟨id, p.1⟩) fun _ _ _ => False)
      (ports.forM fun p => resultTerm p.2 >>= Build.bind ⟨id, p.1⟩) :=
  forM_bind_registers id fun p _ => resultTerm_registers p.2

theorem find?_resultTerm (ht : w.terms.Indexed) (p : Port) :
    (resultTerm p w).2.terms.find? .output p.name = some (resultTerm p w).1 := by
  rcases resultTerm_cases p w with ⟨t, hfind, hr⟩ | ⟨hfind, hr⟩
  · rw [hr]
    exact hfind
  · have hadd := ht.add .output p.name p.type .output p.name (by decide)
    rw [hr]
    change (w.terms.add .output p.name p.type).2.find? .output p.name = some w.terms.terms.length
    rw [hadd, TermTable.roll_add, TermTable.place?_snoc, ← ht .output p.name (by decide), hfind,
      if_pos ⟨rfl, rfl⟩, TermTable.length_roll]
    rfl

theorem nodup_resultTerm (ht : w.terms.Indexed) (p : Port)
    (h : ((w.terms.declares .output).map Prod.fst).Nodup) :
    (((resultTerm p w).2.terms.declares .output).map Prod.fst).Nodup := by
  rcases resultTerm_cases p w with ⟨t, _, hr⟩ | ⟨hfind, hr⟩
  · rw [hr]
    exact h
  · have hnew : p.name ∉ (w.terms.declares .output).map Prod.fst := by
      rw [← ht.find?_isSome (by decide), hfind]
      exact Bool.false_ne_true
    have hroll : (resultTerm p w).2.terms.roll = w.terms.roll ++ [(.output, p.name, p.type)] := by
      rw [hr]
      exact w.terms.roll_add .output p.name p.type
    have hdeclares : (resultTerm p w).2.terms.declares .output =
        w.terms.declares .output ++ [(p.name, p.type)] := by
      rw [TermTable.declares, hroll, Declaration.ofKind_append]
      rfl
    rw [hdeclares, List.map_append]
    refine List.nodup_append.mpr ⟨h, List.nodup_singleton _, ?_⟩
    rintro a ha b hb rfl
    cases List.mem_singleton.mp hb
    exact hnew ha

/-- What the inputs of a result are bound to: the output of the name of the input, or of another one that
has the same position. -/
structure Stores (id : NodeId) (ports : List (UInt16 × Port)) (t : TermTable) : Prop where
  named : ∀ p ∈ ports, ∃ i, t.find? .output p.2.name = some i
  bound : ∀ p ∈ ports, ∃ q ∈ ports, q.1 = p.1 ∧ ∃ i, t.net? ⟨id, p.1⟩ = some i ∧
    t.find? .output q.2.name = some i

theorem Stores.mono {id : NodeId} {t t' : TermTable} (h : Stores id ports t)
    (hfind : ∀ {name : String} {i : TermId}, t.find? .output name = some i →
      t'.find? .output name = some i)
    (hnet : ∀ index, t'.net? ⟨id, index⟩ = t.net? ⟨id, index⟩) : Stores id ports t' where
  named p hp := by
    obtain ⟨i, hi⟩ := h.named p hp
    exact ⟨i, hfind hi⟩
  bound p hp := by
    obtain ⟨q, hq, hindex, i, hi, hname⟩ := h.bound p hp
    exact ⟨q, hq, hindex, i, (hnet _).trans hi, hfind hname⟩

theorem Stores.congr {id : NodeId} {ports ports' : List (UInt16 × Port)} {t : TermTable}
    (h : Stores id ports t)
    (he : ports'.map (fun p => (p.1, p.2.name)) = ports.map fun p => (p.1, p.2.name)) :
    Stores id ports' t := by
  have hmem {l l' : List (UInt16 × Port)} (he : l'.map (fun p => (p.1, p.2.name)) =
      l.map fun p => (p.1, p.2.name))
      {p : UInt16 × Port} (hp : p ∈ l') : ∃ q ∈ l, q.1 = p.1 ∧ q.2.name = p.2.name := by
    have hp := List.mem_map_of_mem (f := fun p : UInt16 × Port => (p.1, p.2.name)) hp
    rw [he] at hp
    obtain ⟨q, hq, hqp⟩ := List.mem_map.mp hp
    exact ⟨q, hq, Prod.mk.inj hqp⟩
  refine ⟨fun p hp => ?_, fun p hp => ?_⟩
  · obtain ⟨q, hq, _, hname⟩ := hmem he hp
    exact hname ▸ h.named q hq
  · obtain ⟨q, hq, hindex, _⟩ := hmem he hp
    obtain ⟨r, hr, hindex', i, hnet, hfind⟩ := h.bound q hq
    obtain ⟨r', hr', hi, hname⟩ := hmem he.symm hr
    exact ⟨r', hr', hi.trans (hindex'.trans hindex), i, hindex ▸ hnet, hname ▸ hfind⟩

theorem stores_forM (id : NodeId) (ht : w.terms.Orderly) (hi : w.terms.Indexed)
    (hv : (ports.forM (fun p => resultTerm p.2 >>= Build.bind ⟨id, p.1⟩) w).2.hasErrors = false) :
    Stores id ports (ports.forM (fun p => resultTerm p.2 >>= Build.bind ⟨id, p.1⟩) w).2.terms := by
  induction ports generalizing w with
  | nil => exact ⟨List.forall_mem_nil _, List.forall_mem_nil _⟩
  | cons p rest ih =>
      have hrun : (p :: rest).forM (fun p => resultTerm p.2 >>= Build.bind ⟨id, p.1⟩) w =
          rest.forM (fun p => resultTerm p.2 >>= Build.bind ⟨id, p.1⟩)
            (Build.bind ⟨id, p.1⟩ (resultTerm p.2 w).1 (resultTerm p.2 w).2).2 := rfl
      rw [hrun] at hv ⊢
      have hlater := forM_resultTerm_registers id rest
        (Build.bind ⟨id, p.1⟩ (resultTerm p.2 w).1 (resultTerm p.2 w).2).2
      have hmade := (resultTerm_registers p.2 w).terms (hlater.toFrame.hasErrors hv)
      have ht' : (Build.bind ⟨id, p.1⟩ (resultTerm p.2 w).1 (resultTerm p.2 w).2).2.terms.Orderly :=
        (TermTable.Changes.orderly hmade ht).bind _ _
      have hi' : (Build.bind ⟨id, p.1⟩ (resultTerm p.2 w).1 (resultTerm p.2 w).2).2.terms.Indexed :=
        (TermTable.Changes.indexed hmade hi).bind _ _
      have hfind := TermTable.Changes.find? (hlater.terms hv) hi' (by decide) (find?_resultTerm hi p.2)
      obtain ⟨hnamed, hbound⟩ := ih ht' hi' hv
      refine ⟨List.forall_mem_cons.mpr ⟨⟨_, hfind⟩, hnamed⟩, List.forall_mem_cons.mpr ⟨?_, fun q hq => ?_⟩⟩
      · by_cases hagain : ∃ q ∈ rest, q.1 = p.1
        · obtain ⟨q, hq, hindex⟩ := hagain
          obtain ⟨q', hq', hindex', i, hnet, hname⟩ := hbound q hq
          exact ⟨q', List.mem_cons_of_mem p hq', hindex'.trans hindex, i, hindex ▸ hnet, hname⟩
        · have hnet := TermTable.Changes.net? (hlater.terms hv) ht' (p := ⟨id, p.1⟩) fun ⟨q, hq, he⟩ =>
            hagain ⟨q, hq, (PortRef.mk.inj he).2.symm⟩
          refine ⟨p, List.mem_cons_self, rfl, _, hnet.trans ?_, hfind⟩
          exact (OrderedMap.get?_insert _ _ _ _).trans (if_pos rfl)
      · obtain ⟨q', hq', hstored⟩ := hbound q hq
        exact ⟨q', List.mem_cons_of_mem p hq', hstored⟩

theorem nodup_forM (id : NodeId) (hi : w.terms.Indexed)
    (h : ((w.terms.declares .output).map Prod.fst).Nodup)
    (hv : (ports.forM (fun p => resultTerm p.2 >>= Build.bind ⟨id, p.1⟩) w).2.hasErrors = false) :
    (((ports.forM (fun p => resultTerm p.2 >>= Build.bind ⟨id, p.1⟩) w).2.terms.declares
      .output).map Prod.fst).Nodup := by
  induction ports generalizing w with
  | nil => exact h
  | cons p rest ih =>
      have hlater := forM_resultTerm_registers id rest
        (Build.bind ⟨id, p.1⟩ (resultTerm p.2 w).1 (resultTerm p.2 w).2).2
      have hmade := (resultTerm_registers p.2 w).terms (hlater.toFrame.hasErrors hv)
      exact ih ((TermTable.Changes.indexed hmade hi).bind ⟨id, p.1⟩ _) (nodup_resultTerm hi p.2 h) hv

end Handler

namespace Working

variable {w : Working} {env : Env}

theorem registerTerms_result {id : NodeId} {n : ScriptNode} (ht : w.terms.Orderly)
    (hi : w.terms.Indexed) (hv : (w.registerTerms .standard env true).hasErrors = false)
    (hn : w.graph.node? id = some n) (hk : n.kind = .functionResult) :
    Handler.Stores id (n.portsWhere .data .input) (w.registerTerms .standard env true).terms := by
  have hh : Registry.standard.handler? n = some Handler.functionResult := by
    rw [Handler.handler?_standard, hk]
  have hearly : Registry.standard.isEarly n = true := by rw [Registry.isEarly, hh]; rfl
  obtain ⟨v, _, hbefore, hafter⟩ := registerTerms_at env hn hearly
  rw [registerNode_eq (hbefore.graph ▸ hn) hh, Handler.functionResult_register] at hafter
  have hstep := Handler.forM_resultTerm_registers id (n.portsWhere .data .input) v
  have hv' := hafter.toFrame.hasErrors hv
  have hchanges := hbefore.terms (hstep.toFrame.hasErrors hv')
  have htv := TermTable.Changes.orderly hchanges ht
  have hiv := TermTable.Changes.indexed hchanges hi
  have hstores := Handler.stores_forM id htv hiv hv'
  have ht' := TermTable.Changes.orderly (hstep.terms hv') htv
  have hi' := TermTable.Changes.indexed (hstep.terms hv') hiv
  refine hstores.mono (fun hfind => TermTable.Changes.find? (hafter.terms hv) hi' (by decide) hfind)
    fun index => ?_
  exact TermTable.Changes.net? (hafter.terms hv) ht' fun hne => hne rfl

theorem registerNodes_outputs {nodes : List (NodeId × ScriptNode)}
    (h : ∀ x ∈ nodes, w.graph.node? x.1 = some x.2) (hi : w.terms.Indexed)
    (hnodup : ((w.terms.declares .output).map Prod.fst).Nodup)
    (hv : (registerNodes env true nodes w).hasErrors = false) :
    (((registerNodes env true nodes w).terms.declares .output).map Prod.fst).Nodup := by
  induction nodes generalizing w with
  | nil => exact hnodup
  | cons x rest ih =>
      obtain ⟨hx, hrest⟩ := List.forall_mem_cons.mp h
      rw [registerNodes, List.foldl_cons] at hv ⊢
      split at hv
      · next hearly =>
          rw [if_pos hearly]
          have hstep := registerNode_registers hx env
          have hrest' : ∀ y ∈ rest, (Registry.standard.registerNode env x.1 w).2.graph.node? y.1 =
            some y.2 :=
            fun y hy => hstep.graph ▸ hrest y hy
          have hv' := (registerNodes_registers env true hrest').toFrame.hasErrors hv
          refine ih hrest' (TermTable.Changes.indexed (hstep.terms hv') hi) ?_ hv
          by_cases hk : x.2.kind = .functionResult
          · have hh : Registry.standard.handler? x.2 = some Handler.functionResult := by
              rw [Handler.handler?_standard, hk]
            rw [registerNode_eq hx hh, Handler.functionResult_register] at hv' ⊢
            exact Handler.nodup_forM x.1 hi hnodup hv'
          · rw [registerNode_silent hx]
            · exact hnodup
            · cases hkind : x.2.kind <;> first | rfl | exact absurd hkind hk
      · next hlate =>
          rw [if_neg hlate]
          exact ih hrest hi hnodup hv

theorem registerTerms_outputs (hi : w.terms.Indexed)
    (hnodup : ((w.terms.declares .output).map Prod.fst).Nodup)
    (hv : (w.registerTerms .standard env true).hasErrors = false) :
    (((w.registerTerms .standard env true).terms.declares .output).map Prod.fst).Nodup :=
  registerNodes_outputs (fun _ hx => Graph.mem_nodes.mp hx) hi hnodup hv

end Working

end VisualScript
