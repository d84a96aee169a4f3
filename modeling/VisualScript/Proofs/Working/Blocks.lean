import VisualScript.Proofs.Graph.Scheduling
import VisualScript.Proofs.Working.Emission

namespace VisualScript

/-- What a block does: all that comes from its prelude, and its own statements that are no jumps. -/
def Block.code (b : Block) : List Statement :=
  (b.statements.filter fun s => s.1 ≠ b.node || s.2.isStraight).map Prod.snd

/-- The graph of a function as the handlers that are built in expect it. -/
structure Graph.Admissible (g : ScriptGraph) : Prop where
  typed : ∀ l ∈ g.links, (g.port? l.source).any (Port.is l.role .output) = true ∧
    (g.port? l.target).any (Port.is l.role .input) = true
  named : ∀ id n, g.node? id = some n → n.NamedApart .output
  values : ∀ id n, g.node? id = some n → Registry.standard.isPure n = true →
    n.kind.isValue = true ∧ n.hasControl = false
  actions : ∀ id n, g.node? id = some n → Registry.standard.isPure n = false →
    n.kind.isAction = true ∧ (n.kind.tag = .callFunction → n.hasControl = true)
  entries : ∀ id n, g.node? id = some n → n.kind.tag = .functionEntry → n.hasControlInput = false

instance (g : ScriptGraph) : Decidable g.Admissible :=
  decidable_of_iff
    ((∀ l ∈ g.links, (g.port? l.source).any (Port.is l.role .output) = true ∧
        (g.port? l.target).any (Port.is l.role .input) = true) ∧
      ∀ x ∈ g.stored, x.2.NamedApart .output ∧
        (Registry.standard.isPure x.2 = true → x.2.kind.isValue = true ∧ x.2.hasControl = false) ∧
        (Registry.standard.isPure x.2 = false →
          x.2.kind.isAction = true ∧ (x.2.kind.tag = .callFunction → x.2.hasControl = true)) ∧
        (x.2.kind.tag = .functionEntry → x.2.hasControlInput = false))
    ⟨fun ⟨htyped, hnodes⟩ =>
      have hnode (id : NodeId) (n : ScriptNode) (hn : g.node? id = some n) :=
        hnodes (id, n) (Graph.mem_stored.mpr hn)
      ⟨htyped, fun id n hn => (hnode id n hn).1, fun id n hn => (hnode id n hn).2.1,
        fun id n hn => (hnode id n hn).2.2.1, fun id n hn => (hnode id n hn).2.2.2⟩,
    fun h => ⟨h.typed, fun _ hx =>
      have hn := Graph.mem_stored.mp hx
      ⟨h.named _ _ hn, h.values _ _ hn, h.actions _ _ hn, h.entries _ _ hn⟩⟩⟩

theorem Block.code_eq (id : NodeId) {front : List (NodeId × Statement)} {own : List Statement} (e : Exit)
    (hfront : ∀ t ∈ front, t.2.isStraight = true) (hown : Straight own) :
    Block.code ⟨id, front ++ (own ++ e.code).map fun s => (id, s)⟩ = front.map Prod.snd ++ own := by
  have hkept : (front.filter fun s => s.1 ≠ id || s.2.isStraight) = front :=
    List.filter_eq_self.mpr fun t ht => by rw [hfront t ht, Bool.or_true]
  have hstraight : (own.filter fun s => s.isStraight) = own := List.filter_eq_self.mpr hown
  have hdropped : (e.code.filter fun s => s.isStraight) = [] :=
    List.filter_eq_nil_iff.mpr fun s hs => by simp [(e.code_jumps s hs).1]
  rw [Block.code, List.filter_append, hkept, List.filter_map, List.map_append, List.map_map]
  simp [Function.comp_def, hstraight, hdropped]

def Statement.isMark : Statement → Bool
  | .comment _ | .debugSite _ => true
  | _ => false

theorem straight_of_marks {code : List Statement} (h : ∀ s ∈ code, s.isMark = true) : Straight code := by
  intro s hs
  have hmark := h s hs
  cases s <;> first | rfl | cases hmark

namespace Build

open Working (Grows)

variable {env : Env} {id : NodeId} {n : ScriptNode} {w : Working}

theorem emit_eq (r : Registry) (env : Env) (id : NodeId) (w : Working) :
    ∃ lead, (∀ s ∈ lead, s.isMark = true) ∧
    emit r env id w = ((lead ++ (r.emitNode env id w).1).map fun s => (id, s),
      (r.emitNode env id w).2) := by
  refine ⟨_, ?_, rfl⟩
  intro s hs
  rcases List.mem_append.mp hs with hs | hs <;> split at hs
  · obtain ⟨n, _, rfl⟩ := List.mem_map.mp hs
    rfl
  · cases hs
  · cases List.mem_singleton.mp hs
    rfl
  · cases hs

theorem emit_respects (env : Env) (id : NodeId) : Respects Grows (emit .standard env id) :=
  .bind .get fun _ => .bind (Registry.standard_emitNode env id) fun _ => .pure _

theorem block_respects (env : Env) (s : Schedule) (id : NodeId) :
    Respects Grows (block .standard env s id) :=
  .bind (.mapM (emit_respects env) _) fun _ => .pure _

theorem block_eq (r : Registry) (env : Env) (s : Schedule) (id : NodeId) (w : Working) :
    block r env s id w =
      (⟨id, ((s.prelude id).mapM (emit r env) w).1.flatten ++
        (emit r env id ((s.prelude id).mapM (emit r env) w).2).1⟩,
        (emit r env id ((s.prelude id).mapM (emit r env) w).2).2) := by
  simp only [block, List.mapM_append, List.mapM_cons, List.mapM_nil]
  simp only [bind_apply, pure_apply, List.flatten_append, List.flatten_cons, List.flatten_nil,
    List.append_nil]

/-- What is done at a scheduled node: what is emitted for its prelude and then for the node itself,
jumps of its own apart. -/
def nodeCode (r : Registry) (env : Env) (s : Schedule) (id : NodeId) (w : Working) : List Statement :=
  let prelude := (s.prelude id).mapM (emit r env) w
  let own := (emit r env id prelude.2).1.filter fun t => t.2.isStraight
  (prelude.1.flatten ++ own).map Prod.snd

theorem emit_node {r : Registry} {t : NodeId × Statement} (ht : t ∈ (emit r env id w).1) : t.1 = id := by
  obtain ⟨_, _, rfl⟩ := List.mem_map.mp ht
  rfl

theorem code_block {s : Schedule} (hs : w.schedule .standard = .ok s) (hid : id ∈ s.linear) (v : Working) :
    (block .standard env s id v).1.code = nodeCode .standard env s id v := by
  rw [block_eq, Block.code, nodeCode, List.filter_append]
  have hprelude : ((((s.prelude id).mapM (emit .standard env) v).1.flatten).filter fun t => t.1 ≠
      id || t.2.isStraight) =
      ((s.prelude id).mapM (emit .standard env) v).1.flatten := by
    refine List.filter_eq_self.mpr fun t ht => ?_
    obtain ⟨part, hpart, ht⟩ := List.mem_flatten.mp ht
    obtain ⟨k, hk, _, _, rfl, _⟩ := Respects.mem_mapM (emit_respects env) hpart
    rw [emit_node ht, decide_eq_true (Graph.ne_of_mem_prelude hs hid hk), Bool.true_or]
  have hown (v : Working) : ((emit .standard env id v).1.filter fun t => t.1 ≠ id || t.2.isStraight) =
      (emit .standard env id v).1.filter fun t => t.2.isStraight := by
    refine List.filter_congr fun t ht => ?_
    rw [emit_node ht, decide_eq_false (not_not_intro rfl), Bool.false_or]
  rw [hprelude, hown]

theorem block_mem_blocks {r : Registry} {s : Schedule} {done rest : List NodeId}
    (h : s.linear = done ++ id :: rest) (w : Working) :
    (block r env s id (done.mapM (block r env s) w).2).1 ∈ (blocks r env s w).1 := by
  rw [blocks, h, List.mapM_append]
  simp only [bind_apply, pure_apply, List.mapM_cons]
  exact List.mem_append_right _ List.mem_cons_self

variable (env) in
theorem prelude_straight (hadm : w.graph.Admissible) {s : Schedule}
    (hs : w.schedule .standard = .ok s) (id : NodeId) :
    ∀ t ∈ ((s.prelude id).mapM (emit .standard env) w).1.flatten, t.1 ∈ s.prelude id ∧
      t.2.isStraight = true := by
  intro t ht
  obtain ⟨part, hpart, ht⟩ := List.mem_flatten.mp ht
  obtain ⟨k, hk, v, hv, rfl, _⟩ := Respects.mem_mapM (emit_respects env) hpart
  obtain ⟨n, hn, hpure⟩ := Graph.mem_prelude hs hk
  obtain ⟨hvalue, hcontrol⟩ := hadm.values k n hn hpure
  obtain ⟨lead, hlead, he⟩ := emit_eq .standard env k v
  rw [he] at ht
  obtain ⟨c, hc, rfl⟩ := List.mem_map.mp ht
  refine ⟨hk, ?_⟩
  rcases List.mem_append.mp hc with hc | hc
  · exact straight_of_marks hlead c hc
  · exact Registry.emitNode_straight (hv.graph ▸ hn) hvalue (fun _ => hcontrol) c hc

/-- A block runs straight on to an exit that the graph tells. -/
theorem block_exiting (hadm : w.graph.Admissible) {s : Schedule} (hs : w.schedule .standard = .ok s)
    (hn : w.graph.node? id = some n) (hp : Registry.standard.isPure n = false) :
    ∃ e, (block .standard env s id w).1.statements.map Prod.snd =
      (block .standard env s id w).1.code ++ e.code ∧
      Straight (block .standard env s id w).1.code ∧ (block .standard env s id w).2.Leaves id n e := by
  have hprelude := prelude_straight env hadm hs id
  have hgrows := Respects.mapM (emit_respects env) (s.prelude id) w
  rw [block_eq]
  generalize (s.prelude id).mapM (emit .standard env) w = prelude at hprelude hgrows
  obtain ⟨parts, v⟩ := prelude
  simp only at hprelude hgrows ⊢
  obtain ⟨haction, hcall⟩ := hadm.actions id n hn hp
  have hexiting : (Registry.standard.emitNode env id v).2.Exiting id n
    (Registry.standard.emitNode env id v).1 :=
    Registry.emitNode_exiting (hgrows.graph ▸ hn) haction hcall fun _ => hadm.named id n hn
  obtain ⟨lead, hmarks, he⟩ := emit_eq .standard env id v
  have hlead := straight_of_marks hmarks
  obtain ⟨own, e, hown, hstraight, hleaves⟩ := hexiting
  rw [he, hown]
  rw [← List.append_assoc]
  have hcode := Block.code_eq id e (fun t ht => (hprelude t ht).2) (hlead.append hstraight)
  refine ⟨e, ?_, ?_, hleaves⟩
  · rw [hcode, List.map_append, List.map_map]
    simp [Function.comp_def]
  · rw [hcode]
    exact Straight.append (fun
      s hs => by obtain ⟨t, ht, rfl⟩ := List.mem_map.mp hs; exact (hprelude t ht).2)
      (hlead.append hstraight)

end Build

namespace FlowGraph

/-- The machine that blocks are, given their exits. -/
def ofBlocks (blocks : List Block) (exit : Block → Exit) : FlowGraph where
  runs id := (Block.find? blocks id).isSome
  code id := ((Block.find? blocks id).map Block.code).getD []
  exit id := ((Block.find? blocks id).map exit).getD default

variable {blocks : List Block} {exit : Block → Exit}

theorem ofBlocks_runs (id : NodeId) :
    (ofBlocks blocks exit).runs id = true ↔ ∃ b ∈ blocks, b.node = id := by
  simp [ofBlocks, Block.find?, List.find?_isSome]

variable (hnodup : (blocks.map Block.node).Nodup) {b : Block} (hb : b ∈ blocks)

include hnodup hb in
theorem ofBlocks_code : (ofBlocks blocks exit).code b.node = b.code := by
  simp [ofBlocks, Block.find?_node hnodup hb]

include hnodup hb in
theorem ofBlocks_exit : (ofBlocks blocks exit).exit b.node = exit b := by
  simp [ofBlocks, Block.find?_node hnodup hb]

end FlowGraph

/-- The machine that the graph of a function is: its impure nodes run, each does what is emitted for its
prelude and for itself after the nodes before it, and goes on where its kind and its links tell. -/
structure Working.Flows (env : Env) (w : Working) (s : Schedule) (φ : Statement → Statement)
    (F : FlowGraph) : Prop where
  runs : ∀ id, F.runs id = true ↔ w.graph.Impure Registry.standard.isPure id
  code : ∀ {done rest : List NodeId} {id : NodeId}, s.linear = done ++ id :: rest →
    F.code id = (Build.nodeCode .standard env s id (done.mapM (Build.block .standard env s) w).2).map φ
  exit : ∀ id n, w.graph.node? id = some n → Registry.standard.isPure n = false →
    (Build.blocks .standard env s w).2.Leaves id n (F.exit id)

theorem Working.Flows.mapCode {env : Env} {w : Working} {s : Schedule} {F : FlowGraph}
    (h : w.Flows env s id F) (φ : Statement → Statement) : w.Flows env s φ (F.mapCode φ) where
  runs := h.runs
  code he := congrArg (List.map φ) ((h.code he).trans (List.map_id _))
  exit := h.exit

namespace Build

variable {env : Env} {w : Working} {s : Schedule}

theorem map_node_blocks (r : Registry) (env : Env) (s : Schedule) (w : Working) :
    ((blocks r env s w).1.map Block.node) = s.linear :=
  map_mapM (fun _ _ => rfl) s.linear w

theorem nodup_blocks (env : Env) {s : Schedule} {w : Working} (hs : w.schedule .standard = .ok s) :
    ((blocks .standard env s w).1.map Block.node).Nodup :=
  map_node_blocks .standard env s w ▸ Graph.schedule_nodup hs

variable (env) in
theorem exit_of_block (hadm : w.graph.Admissible) (hs : w.schedule .standard = .ok s) {b : Block}
    (hb : b ∈ (blocks .standard env s w).1) :
    ∃ e, b.statements.map Prod.snd = b.code ++ e.code ∧ Straight b.code ∧
      ∀ n, w.graph.node? b.node = some n → (blocks .standard env s w).2.Leaves b.node n e := by
  obtain ⟨id, hid, v, hv, rfl, hend⟩ := Respects.mem_mapM (block_respects env s) hb
  obtain ⟨n, hn, hp⟩ := (Graph.mem_linear hs).mp hid
  have hschedule : v.schedule .standard = .ok s := by rw [Working.schedule, hv.graph, hv.entry]; exact hs
  obtain ⟨e, hcode, hstraight, hleaves⟩ := block_exiting (hv.graph ▸ hadm) hschedule (hv.graph ▸ hn) hp
  refine ⟨e, hcode, hstraight, fun n' hn' => ?_⟩
  cases hn.symm.trans hn'
  exact hend.leaves hleaves

variable (env) in
/-- The blocks that are emitted for a graph realise it. -/
theorem blocks_realise (hadm : w.graph.Admissible) (hs : w.schedule .standard = .ok s) :
    ∃ F, w.Flows env s id F ∧ Block.Realises (blocks .standard env s w).1 F := by
  have hgrows : w.Grows (blocks .standard env s w).2 := Respects.mapM (block_respects env s) s.linear w
  have hnodes := map_node_blocks .standard env s w
  have hexit (b : Block) (hb : b ∈ (blocks .standard env s w).1) := exit_of_block env hadm hs hb
  choose! exit hcode hstraight hleaves using hexit
  have hnodup := nodup_blocks env hs
  have hruns (id : NodeId) : (FlowGraph.ofBlocks (blocks .standard env s w).1 exit).runs id = true ↔
      id ∈ s.linear := by
    rw [FlowGraph.ofBlocks_runs, ← hnodes, List.mem_map]
  refine ⟨.ofBlocks (blocks .standard env s w).1 exit,
    ⟨fun id => ?_, fun {done rest id} he => ?_, fun id n hn hp => ?_⟩,
    ⟨fun id => ?_, fun b hb => ?_, fun b hb => ?_⟩⟩
  · rw [hruns, Graph.mem_linear hs]
  · have hid : id ∈ s.linear := he ▸ List.mem_append_right done List.mem_cons_self
    rw [List.map_id, ← code_block hs hid]
    exact FlowGraph.ofBlocks_code hnodup (block_mem_blocks he w)
  · obtain ⟨b, hb, rfl⟩ := (FlowGraph.ofBlocks_runs id).mp
      ((hruns id).mpr ((Graph.mem_linear hs).mpr ⟨n, hn, hp⟩))
    rw [FlowGraph.ofBlocks_exit hnodup hb]
    exact hleaves b hb n hn
  · exact FlowGraph.ofBlocks_runs id
  · rw [FlowGraph.ofBlocks_code hnodup hb, FlowGraph.ofBlocks_exit hnodup hb]
    exact hcode b hb
  · rw [FlowGraph.ofBlocks_code hnodup hb]
    exact hstraight b hb

end Build

end VisualScript
