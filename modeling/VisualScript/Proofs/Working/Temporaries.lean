import VisualScript.Proofs.Working.Declaring

namespace VisualScript

/-- Of the ports that share a position the first. -/
def firstPorts : List (UInt16 × Port) → List (UInt16 × Port)
  | [] => []
  | p :: rest => p :: (firstPorts rest).filter fun q => q.1 ≠ p.1

/-- The locals that a node makes for its data outputs. -/
def Node.temporaries (n : ScriptNode) : List (String × PinType) := match n.kind with
  | .callFunction _ | .makeArray | .enumLiteral _ =>
      (firstPorts (n.portsWhere .data .output)).map fun p => (n.title ++ "_" ++ p.2.name, p.2.type)
  | _ => []

namespace Build

variable {id : NodeId} {n : ScriptNode} {w : Working} {p : UInt16 × Port}

def outputLocal (id : NodeId) (n : ScriptNode) (p : UInt16 × Port) : Build PUnit := do
  match (← get).terms.net? ⟨id, p.1⟩ with
  | some _ => return ()
  | none =>
      let term ← onTerms fun t => t.add .local (n.title ++ "_" ++ p.2.name) p.2.type
      bind ⟨id, p.1⟩ term

theorem outputLocals_eq (id : NodeId) (n : ScriptNode) :
    outputLocals id n = (n.portsWhere .data .output).forM (outputLocal id n) := rfl

theorem outputLocal_of_some {t : TermId} (h : w.terms.net? ⟨id, p.1⟩ = some t) :
    outputLocal id n p w = (⟨⟩, w) := by
  simp only [outputLocal, bind_apply, get_apply, h]
  rfl

theorem outputLocal_of_none (h : w.terms.net? ⟨id, p.1⟩ = none) : (outputLocal id n p w).2.terms =
    (w.terms.add .local (n.title ++ "_" ++ p.2.name) p.2.type).2.bind ⟨id, p.1⟩ w.terms.terms.length := by
  simp only [outputLocal, bind_apply, get_apply, h]
  rfl

/-- Each port that is not bound, and has no port of the same position before it, gets a local. -/
theorem declares_outputLocal (id : NodeId) (n : ScriptNode) (ports : List (UInt16 × Port)) (w : Working) :
    (ports.forM (outputLocal id n) w).2.terms.declares .local = w.terms.declares .local ++
      ((firstPorts ports).filter fun p => (w.terms.net? ⟨id, p.1⟩).isNone).map fun p =>
        (n.title ++ "_" ++ p.2.name, p.2.type) := by
  induction ports generalizing w with
  | nil => exact (List.append_nil _).symm
  | cons p rest ih =>
      have hrun : (p :: rest).forM (outputLocal id n) w =
          rest.forM (outputLocal id n) (outputLocal id n p w).2 := rfl
      rw [hrun, ih, firstPorts]
      cases hnet : w.terms.net? ⟨id, p.1⟩ with
      | some t =>
          have hsame : (firstPorts rest).filter
              (fun q => (w.terms.net? ⟨id, q.1⟩).isNone && decide (q.1 ≠ p.1)) =
              (firstPorts rest).filter fun q => (w.terms.net? ⟨id, q.1⟩).isNone := by
            refine List.filter_congr fun q _ => ?_
            by_cases hq : q.1 = p.1 <;> simp [hq, hnet]
          rw [outputLocal_of_some hnet, List.filter_cons_of_neg (by simp [hnet]),
            List.filter_filter, hsame]
      | none =>
          have hdeclares : (outputLocal id n p w).2.terms.declares .local =
              w.terms.declares .local ++ [(n.title ++ "_" ++ p.2.name, p.2.type)] := by
            have hroll : (outputLocal id n p w).2.terms.roll =
                w.terms.roll ++ [(.local, n.title ++ "_" ++ p.2.name, p.2.type)] := by
              rw [outputLocal_of_none hnet]
              exact w.terms.roll_add .local (n.title ++ "_" ++ p.2.name) p.2.type
            rw [TermTable.declares, hroll, Declaration.ofKind_append]
            rfl
          -- The position is bound from now on, so other ports that share it are passed over.
          have hsame : (firstPorts rest).filter
              (fun q => ((outputLocal id n p w).2.terms.net? ⟨id, q.1⟩).isNone) =
              (firstPorts rest).filter fun q => (w.terms.net? ⟨id, q.1⟩).isNone && decide (q.1 ≠ p.1) := by
            refine List.filter_congr fun q _ => ?_
            have hget : (outputLocal id n p w).2.terms.net? ⟨id, q.1⟩ =
                if (⟨id, q.1⟩ : PortRef) = ⟨id, p.1⟩ then some w.terms.terms.length
                  else w.terms.net? ⟨id, q.1⟩ := by
              rw [outputLocal_of_none hnet]
              exact OrderedMap.get?_insert _ _ _ _
            rw [hget]
            by_cases hq : q.1 = p.1 <;> simp [hq]
          rw [hdeclares, List.filter_cons_of_pos (by simp [hnet]), List.map_cons, List.append_assoc,
            List.singleton_append,
            List.filter_filter, hsame]

end Build

namespace Working

variable {w : Working} {env : Env}

theorem registerNode_temporaries {id : NodeId} {n : ScriptNode} (hn : w.graph.node? id = some n)
    (hlate : Registry.standard.isEarly n = false) (hfree : ∀ index, w.terms.net? ⟨id, index⟩ = none) :
    (Registry.standard.registerNode env id w).2.terms.declares .local =
      w.terms.declares .local ++ n.temporaries := by
  have houtputs {h : Handler} (hh : Registry.standard.handler? n = some h)
      (hregister : h.register env id n = Build.outputLocals id n)
      (htemporaries : n.temporaries = (firstPorts (n.portsWhere .data .output)).map
        fun p => (n.title ++ "_" ++ p.2.name, p.2.type)) :
      (Registry.standard.registerNode env id w).2.terms.declares .local =
        w.terms.declares .local ++ n.temporaries := by
    rw [registerNode_eq hn hh, hregister, Build.outputLocals_eq, Build.declares_outputLocal, htemporaries,
      List.filter_eq_self.mpr fun p _ => by rw [hfree]; rfl]
  have hsilent (hk : n.kind.declares .local = false) (htemporaries : n.temporaries = []) :
      (Registry.standard.registerNode env id w).2.terms.declares .local =
        w.terms.declares .local ++ n.temporaries := by
    rw [registerNode_silent hn hk, htemporaries, List.append_nil]
  have hh := Handler.handler?_standard n
  cases hk : n.kind <;> rw [hk] at hh
  case functionEntry => simp [isEarly_eq, hk, NodeKind.tag] at hlate
  case callFunction | makeArray | enumLiteral => exact houtputs hh rfl (by simp [Node.temporaries, hk])
  all_goals exact hsilent (by rw [hk]; rfl) (by simp [Node.temporaries, hk])

theorem registerNodes_temporaries {nodes : List (NodeId × ScriptNode)}
    (h : ∀ x ∈ nodes, w.graph.node? x.1 = some x.2) (hnodup : (nodes.map Prod.fst).Nodup)
    (ht : w.terms.Orderly)
    (hfree : ∀ x ∈ nodes, Registry.standard.isEarly x.2 = false →
      ∀ index, w.terms.net? ⟨x.1, index⟩ = none)
    (hv : (registerNodes env false nodes w).hasErrors = false) :
    (registerNodes env false nodes w).terms.declares .local =
      w.terms.declares .local ++ nodes.flatMap fun x => x.2.temporaries := by
  induction nodes generalizing w with
  | nil => exact (List.append_nil _).symm
  | cons x rest ih =>
      obtain ⟨hx, hrest⟩ := List.forall_mem_cons.mp h
      obtain ⟨hxfree, hrestfree⟩ := List.forall_mem_cons.mp hfree
      obtain ⟨hnew, hnodup⟩ := List.nodup_cons.mp hnodup
      rw [registerNodes, List.foldl_cons] at hv ⊢
      rw [List.flatMap_cons, ← List.append_assoc]
      split at hv
      · next hlate =>
          rw [if_pos hlate, ← registerNode_temporaries hx hlate (hxfree hlate)]
          have hstep := registerNode_registers hx env
          have hrest' : ∀ y ∈ rest, (Registry.standard.registerNode env x.1 w).2.graph.node? y.1 =
            some y.2 :=
            fun y hy => hstep.graph ▸ hrest y hy
          have hchanges := hstep.terms ((registerNodes_registers env false hrest').toFrame.hasErrors hv)
          refine ih hrest' hnodup (TermTable.Changes.orderly hchanges ht) (fun y hy hy' index => ?_) hv
          rw [TermTable.Changes.net? hchanges ht fun he => hnew (he ▸ List.mem_map_of_mem hy),
            hrestfree y hy hy' index]
      · next hearly =>
          have hnone : x.2.temporaries = [] := by
            rw [isEarly_eq] at hearly
            cases hk : x.2.kind <;> simp [hk, NodeKind.tag, Node.temporaries] at hearly ⊢
          rw [if_neg hearly, hnone, List.append_nil]
          exact ih hrest hnodup ht hrestfree hv

theorem registerTerms_temporaries (ht : w.terms.Orderly)
    (hfree : ∀ x ∈ w.graph.nodes, Registry.standard.isEarly x.2 = false →
      ∀ index, w.terms.net? ⟨x.1, index⟩ = none)
    (hv : (w.registerTerms .standard env false).hasErrors = false) :
    (w.registerTerms .standard env false).terms.declares .local =
      w.terms.declares .local ++ w.graph.nodes.flatMap fun x => x.2.temporaries :=
  registerNodes_temporaries (fun _ hx => Graph.mem_nodes.mp hx) w.graph.nodup_nodes ht hfree hv

end Working

end VisualScript
