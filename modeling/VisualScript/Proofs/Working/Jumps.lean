import VisualScript.Proofs.Working.Blocks

namespace VisualScript

namespace Exit

def targets : Exit → List NodeId
  | .ret | .dispatch _ => []
  | .flow targets => targets
  | .branch _ yes no => yes.toList ++ no.toList

theorem code_ne_nil (e : Exit) : e.code ≠ [] := by
  cases e with
  | flow targets => cases targets <;> simp [code]
  | _ => simp [code]

theorem target?_code (e : Exit) (k : NodeId) :
    (∃ s ∈ e.code, s.target? = some (.node k)) ↔ k ∈ e.targets := by
  cases e with
  | ret | dispatch => simp [code, targets, Statement.target?]
  | flow ids =>
      cases ids with
      | nil => simp [code, targets, Statement.target?]
      | cons first rest => simp [code, targets, Statement.target?, or_comm, eq_comm]
  | branch c yes no =>
      cases yes <;> cases no <;>
        simp [code, targets, target, Statement.jump, Statement.target?, or_comm, eq_comm]

end Exit

def Node.isQuiet (n : ScriptNode) : Bool := !n.kind.isAction || n.kind.tag = .callFunction && !n.hasControl

namespace Working

def exits (w : Working) (id : NodeId) (n : ScriptNode) : List String := match n.kind with
  | .functionResult => []
  | .branch => ["true", "false"]
  | .sequence => (n.portsWhere .control .output).map fun p => p.2.name
  | .functionEntry spec => if spec.computedDispatch && !(w.dataOutputs id).isEmpty then [] else ["then"]
  | _ => if n.isQuiet then [] else ["then"]

def leadsTo (w : Working) (id : NodeId) (n : ScriptNode) : List NodeId :=
  (w.exits id n).filterMap fun output => w.graph.behind? id output

variable {w w' : Working} {id : NodeId} {n : ScriptNode}

theorem Grows.leadsTo (h : w.Grows w') (id : NodeId) (n : ScriptNode) :
    w'.leadsTo id n = w.leadsTo id n := by
  rw [Working.leadsTo, Working.leadsTo, exits, exits, h.graph, h.dataOutputs]

theorem leadsTo_of_isQuiet (h : n.isQuiet = true) : w.leadsTo id n = [] := by
  have hexits : w.exits id n = [] := by
    rw [exits]
    cases hk : n.kind with
    | functionEntry | branch | sequence => simp [Node.isQuiet, hk, NodeKind.isAction, NodeKind.tag] at h
    | functionResult => rfl
    | _ => exact if_pos h
  rw [leadsTo, hexits, List.filterMap_nil]

theorem Leaves.targets {e : Exit} (h : w.Leaves id n e) (hloud : n.isQuiet = false)
    (hk : n.kind.tag ≠ .sequence) :
    e.targets = w.leadsTo id n := by
  have hone (output : String) : (w.graph.behind? id output).toList =
      [output].filterMap fun output => w.graph.behind? id output := by
    cases hb : w.graph.behind? id output <;> simp [hb]
  have hthen (he : e = .flow (w.graph.behind? id "then").toList) (hexits : w.exits id n = ["then"]) :
      e.targets = w.leadsTo id n := by
    rw [he, leadsTo, hexits, ← hone]
    rfl
  cases hkind : n.kind with
  | functionEntry spec =>
      cases hd : spec.computedDispatch <;> cases hi : (w.dataOutputs id) <;>
        simp only [Leaves, hkind, hd, hi, List.head?_nil, List.head?_cons] at h
      case true.cons => simp [h, leadsTo, exits, hkind, hd, hi, Exit.targets]
      all_goals exact hthen h (by simp [exits, hkind, hd, hi])
  | functionResult =>
      simp only [Leaves, hkind] at h
      simp [h, leadsTo, exits, hkind, Exit.targets]
  | branch =>
      simp only [Leaves, hkind] at h
      obtain ⟨c, _, rfl⟩ := h
      rw [Exit.targets, hone, hone, ← List.filterMap_append, leadsTo, exits, hkind]
      rfl
  | sequence => exact absurd (by rw [hkind]; rfl) hk
  | _ =>
      refine hthen (by simpa only [Leaves, hkind] using h) ?_
      rw [exits, hkind]
      exact if_neg (Bool.eq_false_iff.mp hloud)

end Working

namespace Registry

variable {env : Env} {id : NodeId} {n : ScriptNode} {w : Working}

theorem emitNode_quiet (hn : w.graph.node? id = some n) (hq : n.isQuiet = true) :
    Straight (standard.emitNode env id w).1 := by
  cases hv : n.kind.isValue with
  | true =>
      refine emitNode_straight hn hv fun hcall => ?_
      have hquiet := hq
      rw [Node.isQuiet, hcall] at hquiet
      have haction : n.kind.isAction = true := by
        cases hk : n.kind <;> simp_all [NodeKind.tag, NodeKind.isAction]
      simpa [haction] using hquiet
  | false =>
      -- What is left has no handler.
      have hh := Handler.handler?_standard n
      have hnone : standard.handler? n = none := by
        cases hk : n.kind <;> simp_all [NodeKind.isValue, NodeKind.isAction, NodeKind.tag, Node.isQuiet]
      simp only [emitNode, Build.bind_apply, Build.get_apply, hn, hnone]
      exact List.forall_mem_nil _

/-- The code of any other node ends with jumps to the nodes that its control outputs lead to. -/
theorem emitNode_exit (env : Env) (hn : w.graph.node? id = some n) (hloud : n.isQuiet = false) :
    ∃ (front : List Statement) (e : Exit), (standard.emitNode env id w).1 = front ++ e.code ∧
      Straight front ∧ e.targets = w.leadsTo id n := by
  have haction : n.kind.isAction = true := by
    rw [Node.isQuiet, Bool.or_eq_false_iff, Bool.not_eq_false'] at hloud
    exact hloud.1
  by_cases hk : n.kind.tag = .sequence
  · have hkind : n.kind = .sequence := by cases hkind : n.kind <;> simp_all [NodeKind.tag]
    have hh := Handler.handler?_standard n
    rw [hkind] at hh
    refine ⟨[], .flow ((n.portsWhere .control .output).filterMap fun p => w.graph.behind? id p.2.name), ?_,
      List.forall_mem_nil _, ?_⟩
    · rw [emitNode_eq hn hh, Handler.sequence_code]
      rfl
    · rw [Working.leadsTo, Working.exits, hkind, List.filterMap_map]
      rfl
  · have hcall : n.kind.tag = .callFunction → n.hasControl = true := by
      intro hcall
      simpa [Node.isQuiet, haction, hcall] using hloud
    have hexiting : (standard.emitNode env id w).2.Exiting id n (standard.emitNode env id w).1 :=
      emitNode_exiting hn haction hcall fun h => absurd h hk
    obtain ⟨front, e, hcode, hfront, hleaves⟩ := hexiting
    refine ⟨front, e, hcode, hfront, ?_⟩
    rw [hleaves.targets hloud hk, (standard_emitNode env id w).leadsTo]

theorem straight_emitNode_iff (env : Env) (hn : w.graph.node? id = some n) :
    Straight (standard.emitNode env id w).1 ↔ n.isQuiet = true := by
  refine ⟨fun h => ?_, emitNode_quiet hn⟩
  by_contra hloud
  obtain ⟨front, e, hcode, _, _⟩ := emitNode_exit env hn (Bool.eq_false_iff.mpr hloud)
  obtain ⟨s, hs⟩ := List.exists_mem_of_ne_nil _ e.code_ne_nil
  have hstraight := h s (hcode ▸ List.mem_append_right front hs)
  rw [(e.code_jumps s hs).1] at hstraight
  cases hstraight

theorem target?_emitNode (env : Env) (hn : w.graph.node? id = some n) (k : NodeId) :
    (∃ s ∈ (standard.emitNode env id w).1, s.target? = some (.node k)) ↔ k ∈ w.leadsTo id n := by
  have hnone {code : List Statement} (h : Straight code) : ¬∃ s ∈ code, s.target? = some (.node k) := by
    rintro ⟨s, hs, htarget⟩
    rw [Statement.target?_straight (h s hs)] at htarget
    cases htarget
  cases hq : n.isQuiet with
  | true =>
      rw [Working.leadsTo_of_isQuiet hq]
      exact iff_of_false (hnone (emitNode_quiet hn hq)) List.not_mem_nil
  | false =>
      obtain ⟨front, e, hcode, hfront, htargets⟩ := emitNode_exit env hn hq
      rw [hcode, ← htargets, ← e.target?_code k]
      simp only [List.mem_append, or_and_right, exists_or]
      exact or_iff_right (hnone hfront)

end Registry

namespace Working

def Runs (w : Working) (id : NodeId) : Prop := w.graph.Impure Registry.standard.isPure id

/-- A statement that a node contributes to a block: it jumps only if the block is that of the node,
and only to nodes that have a block. -/
def Goes (w : Working) (block id : NodeId) (s : Statement) : Prop :=
  (id ≠ block → s.isStraight = true) ∧ ∀ k, s.target? = some (.node k) → w.Runs k

variable {w v : Working} {block id : NodeId}

theorem goes_of_isMark {s : Statement} (h : s.isMark = true) : w.Goes block id s := by
  have hstraight := straight_of_marks (List.forall_mem_singleton.mpr h) s (List.mem_singleton_self s)
  refine ⟨fun _ => hstraight, fun k hk => ?_⟩
  rw [Statement.target?_straight hstraight] at hk
  cases hk

theorem goes_emitNode (env : Env) (hv : w.Grows v) {n : ScriptNode} (hn : w.graph.node? id = some n) :
    (∀ s ∈ (Registry.standard.emitNode env id v).1, w.Goes block id s) ↔
      (id ≠ block → n.isQuiet = true) ∧ ∀ k ∈ w.leadsTo id n, w.Runs k := by
  have hn' : v.graph.node? id = some n := hv.graph ▸ hn
  have hlead (k : NodeId) := Registry.target?_emitNode env hn' k
  simp only [← Registry.straight_emitNode_iff env hn', ← hv.leadsTo, ← hlead]
  constructor
  · exact fun h => ⟨fun hne s hs => (h s hs).1 hne, fun k ⟨s, hs, hk⟩ => (h s hs).2 k hk⟩
  · exact fun h s hs => ⟨fun hne => h.1 hne s hs, fun k hk => h.2 k ⟨s, hs, hk⟩⟩

end Working

/-- Nothing that a block computes for its node jumps, and all jumps lead to nodes that have a block. -/
structure Block.Uncut (blocks : List Block) (body : Body) : Prop where
  straight : ∀ b ∈ blocks, ∀ t ∈ b.statements, t.1 ≠ b.node → t.2.isStraight = true
  linked : ∀ b ∈ blocks, ∀ t ∈ b.statements, ∀ k, t.2.target? = some (.node k) →
    ∃ offset, body.blockStart? k = some offset

namespace Build

variable {env : Env} {w : Working} {s : Schedule}

theorem forall_blocks {P : NodeId → NodeId → Statement → Prop} {Q : NodeId → NodeId → Prop}
    (hmark : ∀ id k c, c.isMark = true → P id k c)
    (hcode : ∀ id ∈ s.linear, ∀ k ∈ s.prelude id ++ [id], ∀ v, w.Grows v →
      ((∀ c ∈ (Registry.standard.emitNode env k v).1, P id k c) ↔ Q id k)) :
    (∀ b ∈ (blocks .standard env s w).1, ∀ t ∈ b.statements, P b.node t.1 t.2) ↔
      ∀ id ∈ s.linear, ∀ k ∈ s.prelude id ++ [id], Q id k := by
  refine Respects.forall_mapM (block_respects env s) fun id hid v hv => ?_
  have hparts : (∀ part ∈ ((s.prelude id ++ [id]).mapM (emit .standard env) v).1, ∀ t ∈ part,
      P id t.1 t.2) ↔
      ∀ k ∈ s.prelude id ++ [id], Q id k := by
    refine Respects.forall_mapM (emit_respects env) fun k hk x hx => ?_
    obtain ⟨lead, hlead, he⟩ := emit_eq .standard env k x
    rw [he, List.forall_mem_map, List.forall_mem_append, ← hcode id hid k hk x (IsTrans.trans _ _ _ hv hx)]
    exact and_iff_right fun c hc => hmark id k c (hlead c hc)
  rw [← hparts]
  exact List.forall_mem_flatten

variable (hs : w.schedule .standard = .ok s)

include hs

variable (env) in
theorem blockStart?_link (originOf : NodeId → Option Origin) (k : NodeId) :
    (∃ offset, (Body.link (blocks .standard env s w).1 originOf).blockStart? k = some offset) ↔
      w.Runs k := by
  have hnodes := map_node_blocks .standard env s w
  have hnodup := nodup_blocks env hs
  rw [Working.Runs, ← Graph.mem_linear hs, ← hnodes]
  constructor
  · rintro ⟨offset, hoffset⟩
    by_contra hk
    rw [Block.no_blockStart_of_nodup hnodup originOf fun b hb he => hk
      (List.mem_map.mpr ⟨b, hb, he⟩)] at hoffset
    cases hoffset
  · intro hk
    obtain ⟨b, hb, rfl⟩ := List.mem_map.mp hk
    obtain ⟨i, hi⟩ := List.mem_iff_getElem?.mp hb
    exact ⟨_, Block.blockStart_of_nodup hnodup originOf hi⟩

theorem uncut_iff (originOf : NodeId → Option Origin) :
    Block.Uncut (blocks .standard env s w).1 (Body.link (blocks .standard env s w).1 originOf) ↔
      (∀ id ∈ s.linear, ∀ k ∈ s.prelude id, ∀ n, w.graph.node? k = some n → n.isQuiet = true) ∧
      ∀ id ∈ s.linear, ∀ n, w.graph.node? id = some n → ∀ k ∈ w.leadsTo id n, w.Runs k := by
  have hgoes : Block.Uncut (blocks .standard env s w).1 (Body.link (blocks .standard env s w).1 originOf) ↔
      ∀ b ∈ (blocks .standard env s w).1, ∀ t ∈ b.statements, w.Goes b.node t.1 t.2 := by
    simp only [Working.Goes, ← blockStart?_link env hs originOf]
    exact ⟨fun h b hb t ht => ⟨h.straight b hb t ht, h.linked b hb t ht⟩,
      fun h => ⟨fun b hb t ht => (h b hb t ht).1, fun b hb t ht => (h b hb t ht).2⟩⟩
  have hnodes : (∀ b ∈ (blocks .standard env s w).1, ∀ t ∈ b.statements, w.Goes b.node t.1 t.2) ↔
      ∀ id ∈ s.linear, ∀ k ∈ s.prelude id ++ [id], ∀ n, w.graph.node? k = some n →
        (k ≠ id → n.isQuiet = true) ∧ ∀ m ∈ w.leadsTo k n, w.Runs m := by
    refine forall_blocks (fun _ _ _ => Working.goes_of_isMark) fun id hid k hk v hv => ?_
    obtain ⟨n, hn⟩ := Graph.exists_of_mem_run hs hid hk
    simp only [Working.goes_emitNode env hv hn, hn, Option.some.injEq, forall_eq']
  rw [hgoes, hnodes]
  constructor
  · intro h
    refine ⟨fun id hid k hk n hn => ?_, fun id hid n hn => ?_⟩
    · exact (h id hid k (List.mem_append_left _ hk) n hn).1 (Graph.ne_of_mem_prelude hs hid hk)
    · exact (h id hid id (List.mem_append_right _ (List.mem_singleton_self id)) n hn).2
  · rintro ⟨hquiet, hleads⟩ id hid k hk n hn
    rcases List.mem_append.mp hk with hk | hk
    · refine ⟨fun _ => hquiet id hid k hk n hn, ?_⟩
      rw [Working.leadsTo_of_isQuiet (hquiet id hid k hk n hn)]
      exact List.forall_mem_nil _
    · cases List.mem_singleton.mp hk
      exact ⟨fun hne => absurd rfl hne, hleads id hid n hn⟩

end Build

end VisualScript
