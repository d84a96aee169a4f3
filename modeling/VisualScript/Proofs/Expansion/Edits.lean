import Mathlib.Logic.Relation
import VisualScript.Proofs.Graph.Slots
import VisualScript.Proofs.Provenance
import VisualScript.Working.Expansion

namespace VisualScript.Expansion

/-- One edit of a function on behalf of the node `site`. Between copying a body in and removing nodes,
expansion does nothing else. -/
inductive Edit (site : NodeId) : Working → Working → Prop
  | report (w : Working) (issue : Issue) (node : Option NodeId) (port : Option UInt16) :
      Edit site w (w.report issue node port)
  | inspect (w : Working) (p : PortRef) : Edit site w (w.inspect p)
  | link (w : Working) (a b : PortRef) (l : LinkId) (g : ScriptGraph)
      (h : w.graph.connect a b = .ok (l, g)) :
      Edit site w { w with graph := g }
  | unlink (w : Working) (p : PortRef) : Edit site w { w with graph := w.graph.disconnect p }
  | setDefault (w : Working) (p : PortRef) (value : Option String) :
      Edit site w { w with graph := w.graph.setDefault p value }
  | synthesize (w : Working) (n : ScriptNode) (hi : n.kind.isInstance = false)
      (ht : n.kind.isTunnel = false) :
      Edit site w
        { w with
          graph := (w.graph.addNode n).2
          provenance := w.provenance.recordSynthesized (w.graph.addNode n).1 site }

abbrev Edits (site : NodeId) : Working → Working → Prop := Relation.ReflTransGen (Edit site)

def Moves (site : NodeId) (x y : Expansion) : Prop := y.halted = x.halted ∧ Edits site x.work y.work

variable {site : NodeId}

theorem Moves.refl (x : Expansion) : Moves site x x := ⟨rfl, .refl⟩

theorem Moves.trans {x y z : Expansion} (h : Moves site x y) (h' : Moves site y z) : Moves site x z :=
  ⟨h'.1.trans h.1, h.2.trans h'.2⟩

theorem Moves.ofEdits (x : Expansion) {f : Working → Working} (h : Edits site x.work (f x.work)) :
    Moves site x (x.onWork f) := ⟨rfl, h⟩

theorem Moves.foldl {α : Type} (f : Expansion → α → Expansion) (h : ∀ x a, Moves site x (f x a))
    (l : List α) (x : Expansion) : Moves site x (l.foldl f x) := by
  induction l generalizing x with
  | nil => exact .refl x
  | cons a rest ih => exact (h x a).trans (ih (f x a))

theorem foldl_edits {α : Type} (f : Working → α → Working) (h : ∀ w a, Edits site w (f w a)) (l : List α)
    (w : Working) : Edits site w (l.foldl f w) := by
  induction l generalizing w with
  | nil => exact .refl
  | cons a rest ih => exact (h w a).trans (ih (f w a))

theorem inspect_moves (x : Expansion) (p : PortRef) : Moves site x (x.inspect p) :=
  .ofEdits x (.single (.inspect x.work p))

theorem report_moves (x : Expansion) (issue : Issue) (node : Option NodeId) (port : Option UInt16) :
    Moves site x (x.onWork fun w => w.report issue node port) :=
  .ofEdits x (.single (.report x.work issue node port))

theorem rewire_edits (w : Working) (source sink : PortRef) : Edits site w (rewire w source sink) := by
  rw [rewire]
  split
  · next l g h => exact .single (.link w source sink l g h)
  · exact .single (.report ..)

theorem rewireAll_edits (w : Working) (sources sinks : List PortRef) :
    Edits site w (rewireAll w sources sinks) := by
  apply foldl_edits
  intro w source
  apply foldl_edits
  intro w sink
  exact rewire_edits w source sink

theorem synthesize_moves (x : Expansion) (n : ScriptNode) (hi : n.kind.isInstance = false)
    (ht : n.kind.isTunnel = false) : Moves site x (x.synthesize n site).2 :=
  ⟨rfl, .single (.synthesize x.work n hi ht)⟩

theorem wire_moves (env : Env) (x : Expansion) (role : Role) (sources sinks : List PortRef)
    (boundary : Option BoundarySite) : Moves site x (wire env x role sources sinks boundary site) := by
  unfold wire
  split
  · split
    · refine (synthesize_moves x (ScriptNode.tunnelBoundary _) rfl rfl).trans (.ofEdits _ ?_)
      exact (rewireAll_edits _ _ _).trans (rewireAll_edits _ _ _)
    · exact .ofEdits x (rewireAll_edits _ _ _)
  · exact .ofEdits x (rewireAll_edits _ _ _)

theorem setDefaults_edits (w : Working) (sinks : List PortRef) (value : String) :
    Edits site w { w with graph := sinks.foldl (fun g p => g.setDefault p (some value)) w.graph } := by
  induction sinks generalizing w with
  | nil => exact .refl
  | cons p rest ih => exact .head (.setDefault w p (some value)) (ih _)

theorem disconnect_moves (x : Expansion) (up down : PortRef) :
    Moves site x (x.onWork fun w => { w with graph := (w.graph.disconnect up).disconnect down }) :=
  .ofEdits x (.head (.unlink x.work up) (.single (.unlink _ down)))

theorem splice_moves (env : Env) (x : Expansion) (up down : PortRef) (boundary : Option BoundarySite) :
    Moves site x (splice env x up down boundary site) := by
  rw [splice]
  cases x.work.graph.port? up with
  | none => exact .refl x
  | some port =>
      refine (inspect_moves x up).trans ((disconnect_moves _ up down).trans ?_)
      simp only
      split
      · cases port.default with
        | none => exact .refl _
        | some value => exact .ofEdits _ (setDefaults_edits _ _ _)
      · exact wire_moves ..

theorem joinPort_moves (env : Env) (s : Site) (x : Expansion) (p : UInt16 × Port) :
    Moves s.id x (joinPort env s x p) := by
  unfold joinPort
  extract_lets outer inner
  split
  · exact splice_moves ..
  · exact splice_moves ..
  · refine (inspect_moves x outer).trans ?_
    split
    · exact report_moves ..
    · exact .refl _

theorem feeder?_kind {p : Port} {n : ScriptNode} {output : UInt16} (h : feeder? p = some (n, output)) :
    n.kind.isInstance = false ∧ n.kind.isTunnel = false := by
  unfold feeder? at h
  split at h
  · cases h; exact ⟨rfl, rfl⟩
  · split at h
    · cases h; exact ⟨rfl, rfl⟩
    · cases h

theorem feedPort_moves (copy : NodeId) (x : Expansion) (p : UInt16 × Port) :
    Moves site x (feedPort site copy x p) := by
  rw [feedPort]
  cases h : feeder? p.2 with
  | none => exact .refl x
  | some f =>
      obtain ⟨hi, ht⟩ := feeder?_kind h
      exact (synthesize_moves x f.1 hi ht).trans (.ofEdits _ (rewire_edits _ _ _))

theorem inspectAll_moves (copy : NodeId) (ports : List (UInt16 × Port)) (x : Expansion) :
    Moves site x (ports.foldl (fun x p => x.inspect ⟨copy, p.1⟩) x) := by
  induction ports generalizing x with
  | nil => exact .refl x
  | cons p rest ih => exact (inspect_moves x ⟨copy, p.1⟩).trans (ih _)

theorem feedCopy_moves (x : Expansion) (copy : NodeId) : Moves site x (feedCopy site x copy) := by
  unfold feedCopy
  split
  · exact .refl x
  · split
    · exact .refl x
    · extract_lets inputs unlinked
      exact (inspectAll_moves copy inputs x).trans
        (.foldl (feedPort site copy) (feedPort_moves copy) unlinked _)

theorem passPort_moves (env : Env) (n : ScriptNode) (x : Expansion) (p : UInt16 × Port) :
    Moves site x (passPort env site n x p) := by
  unfold passPort
  extract_lets here
  split
  · split
    · exact splice_moves ..
    · exact .refl x
  · refine (inspect_moves x here).trans ?_
    split
    · exact report_moves ..
    · exact .refl _

theorem Edit.node_cases {w w' : Working} (h : Edit site w w') {k : NodeId} {m : ScriptNode}
    (hk : w'.graph.node? k = some m) :
    (∃ n, w.graph.node? k = some n ∧ n.outline = m.outline) ∨
      m.kind.isInstance = false ∧ m.kind.isTunnel = false := by
  cases h with
  | report | inspect => exact Or.inl ⟨m, hk, rfl⟩
  | link a b l g h =>
      rw [Graph.node?_congr (Graph.connect_slots h)] at hk
      exact Or.inl ⟨m, hk, rfl⟩
  | unlink p =>
      rw [Graph.node?_congr (Graph.disconnect_slots _ p)] at hk
      exact Or.inl ⟨m, hk, rfl⟩
  | setDefault p value =>
      have ho := Graph.outline_setDefault w.graph p value k
      rw [hk] at ho
      exact Or.inl (Option.map_eq_some_iff.mp ho.symm)
  | synthesize n hi ht =>
      rcases Graph.addNode_cases w.graph n k m hk with hk | ⟨_, rfl⟩
      · exact Or.inl ⟨m, hk, rfl⟩
      · exact Or.inr ⟨hi, ht⟩

theorem Edit.depth_cases {w w' : Working} (h : Edit site w w') (k : NodeId) :
    w'.provenance.depth k = w.provenance.depth k ∨ w'.provenance.depth k =
      w.provenance.depth site + 1 := by
  cases h with
  | report | inspect | link | unlink | setDefault => exact Or.inl rfl
  | synthesize n =>
      rw [Provenance.depth_recordSynthesized]
      split
      · exact Or.inr rfl
      · exact Or.inl rfl

theorem Edit.diagnostics_prefix {w w' : Working} (h : Edit site w w') :
    w.diagnostics <+: w'.diagnostics := by
  cases h with
  | report => exact List.prefix_append _ _
  | inspect | link | unlink | setDefault | synthesize => exact List.prefix_rfl

theorem Edits.diagnostics_prefix {w w' : Working} (h : Edits site w w') :
    w.diagnostics <+: w'.diagnostics := by
  induction h with
  | refl => exact List.prefix_rfl
  | tail _ h ih => exact ih.trans h.diagnostics_prefix

def removeNodes (w : Working) (ids : List NodeId) : Working := ids.foldl Working.removeNode w

theorem foldl_removeTunnel (x : Expansion) (ids : List NodeId) :
    (ids.foldl removeTunnel x).work = removeNodes x.work ids ∧
      (ids.foldl removeTunnel x).halted = x.halted := by
  induction ids generalizing x with
  | nil => exact ⟨rfl, rfl⟩
  | cons id rest ih => exact ih (x.removeTunnel id)

theorem removeNodes_diagnostics (w : Working) (ids : List NodeId) :
    (removeNodes w ids).diagnostics = w.diagnostics := by
  induction ids generalizing w with
  | nil => rfl
  | cons id rest ih => exact ih (w.removeNode id)

theorem node?_removeNodes (w : Working) (ids : List NodeId) (k : NodeId) :
    (removeNodes w ids).graph.node? k = if k ∈ ids then none else w.graph.node? k := by
  induction ids generalizing w with
  | nil => rfl
  | cons id rest ih =>
      refine (ih (w.removeNode id)).trans ?_
      have hr : (w.removeNode id).graph.node? k = if k = id then none else w.graph.node? k :=
        Graph.node?_removeNode w.graph id k
      rw [hr]
      by_cases h : k = id <;> by_cases hk : k ∈ rest <;> simp [h, hk]

theorem depth_removeNodes (w : Working) (ids : List NodeId) {k : NodeId} (h : k ∉ ids) :
    (removeNodes w ids).provenance.depth k = w.provenance.depth k := by
  induction ids generalizing w with
  | nil => rfl
  | cons id rest ih =>
      rw [List.mem_cons, not_or] at h
      exact (ih (w.removeNode id) h.2).trans (Provenance.depth_forget_of_ne w.provenance h.1)

theorem collapseTunnel_cases (env : Env) {x : Expansion} {id : NodeId} {n : ScriptNode}
    (h : x.work.graph.node? id = some n) :
    ∃ w, Edits id x.work w ∧ (collapseTunnel env x id).work = w.removeNode id ∧
      (collapseTunnel env x id).halted = x.halted := by
  have hm := Moves.foldl (passPort env id n) (passPort_moves env n) n.indexed x
  refine ⟨_, hm.2, ?_, ?_⟩ <;> simp only [collapseTunnel, h]
  · rfl
  · exact hm.1

/-- An instance whose ports are joined to a body that was merged in for it, with all inputs of the
copies fed. -/
def attached (env : Env) (x : Expansion) (s : Site) (copies : List NodeId) : Expansion :=
  copies.foldl (feedCopy s.id) (s.node.indexed.foldl (joinPort env s) x)

theorem attached_moves (env : Env) (x : Expansion) (s : Site) (copies : List NodeId) :
    Moves s.id x (attached env x s copies) :=
  (Moves.foldl (joinPort env s) (joinPort_moves env s) s.node.indexed x).trans
    (Moves.foldl (feedCopy s.id) feedCopy_moves copies _)

theorem connectBody_work (env : Env) (x : Expansion) (s : Site) (copies : List NodeId) :
    (connectBody env x s copies).work =
      removeNodes (attached env x s copies).work (s.input.toList ++ s.output.toList ++ [s.id]) := by
  rw [connectBody]
  simp only [attached, onWork, foldl_removeTunnel, removeNodes, List.foldl_append, List.foldl_cons,
    List.foldl_nil]

theorem connectBody_cases (env : Env) (x : Expansion) (s : Site) (copies : List NodeId) :
    ∃ w, Edits s.id x.work w ∧
      (connectBody env x s copies).work = removeNodes w (s.input.toList ++ s.output.toList ++ [s.id]) ∧
      (connectBody env x s copies).halted = x.halted := by
  have hm := attached_moves env x s copies
  refine ⟨_, hm.2, connectBody_work env x s copies, ?_⟩
  rw [connectBody]
  simp only [onWork, foldl_removeTunnel]
  exact hm.1

def mergedIn (w : Working) (id : NodeId) (body : ScriptGraph) : Working :=
  { w with
    graph := (w.graph.merge body).2
    provenance := w.provenance.recordExpansion (w.graph.merge body).1 body.name id }

def resolvedIn (w : Working) (id : NodeId) (body : ScriptGraph) (resolved : Option PinType) : Working :=
  { mergedIn w id body with
    graph := resolvePorts resolved (w.graph.merge body).1.copies (w.graph.merge body).2 }

/-- Resolving ports is a run of changes to nodes, none of which touches an outline. -/
theorem resolvePorts_induction {P : ScriptGraph → Prop} {ids : List NodeId} {g : ScriptGraph}
    (resolved : Option PinType) (h : P g)
    (hstep : ∀ g, ∀ id ∈ ids, ∀ f : ScriptNode → ScriptNode, (∀ n, (f n).outline = n.outline) →
      P g → P (g.modifyNode id f)) :
    P (resolvePorts resolved ids g) := by
  cases resolved with
  | none => exact h
  | some type =>
      refine List.foldlRecOn (motive := P) ids _ h fun g hg id hid => hstep g id hid _ (fun n => ?_) hg
      simp [Node.outline, Function.comp_def]

theorem outline_resolvePorts (resolved : Option PinType) (ids : List NodeId) (g : ScriptGraph)
    (k : NodeId) :
    ((resolvePorts resolved ids g).node? k).map Node.outline = (g.node? k).map Node.outline := by
  refine resolvePorts_induction (P := fun g' => (g'.node? k).map Node.outline = _) resolved rfl
    fun g' id _ f hf hg => ?_
  rw [Graph.node?_modifyNode, Option.map_map, ← hg]
  congr 1
  funext n
  by_cases hk : k = id <;> simp [hk, hf]

def entered (x : Expansion) (id : NodeId) (body : ScriptGraph) (resolved : Option PinType) : Expansion :=
  { x with
    work := resolvedIn x.work id body resolved
    stats := { x.stats with instances := x.stats.instances + 1 } }

def bodyTunnels (w : Working) (id : NodeId) (body : ScriptGraph) (resolved : Option PinType)
    (side : TunnelSide) :
    List NodeId :=
  tunnelsOf (resolvedIn w id body resolved).graph (w.graph.merge body).1.copies side

theorem inline_eq (env : Env) (x : Expansion) (id : NodeId) (n : ScriptNode) (body : ScriptGraph)
    (resolved : Option PinType) (hd : x.work.provenance.depth id < env.options.maxExpansionDepth)
    (hl : (x.work.graph.merge body).2.nodeCount ≤ env.options.maxExpandedNodes) :
    inline env x id n body resolved =
      let copies := (x.work.graph.merge body).1.copies
      let inputs := bodyTunnels x.work id body resolved .input
      let outputs := bodyTunnels x.work id body resolved .output
      if 1 < inputs.length ∨ 1 < outputs.length then
        (entered x id body resolved).onWork fun w => removeNodes
          (w.report (.tunnelCollapse n.title (tunnelReason body.name inputs.length outputs.length))
            (some id))
          (copies ++ [id])
      else connectBody env (entered x id body resolved)
        ⟨id, n, body.name, inputs.head?, outputs.head?⟩ copies := by
  have hd' : ¬ env.options.maxExpansionDepth ≤ x.work.provenance.depth id := by omega
  have hl' : ¬ env.options.maxExpandedNodes < (x.work.graph.merge body).2.nodeCount := by omega
  simp only [inline, hd', hl', if_false, removeNodes, List.foldl_append, List.foldl_cons, List.foldl_nil]
  rfl

theorem ceilings_of_inline {env : Env} {x : Expansion} {id : NodeId} {n : ScriptNode} {body : ScriptGraph}
    {resolved : Option PinType} (h : (inline env x id n body resolved).halted = false) :
    x.work.provenance.depth id < env.options.maxExpansionDepth ∧
      (x.work.graph.merge body).2.nodeCount ≤ env.options.maxExpandedNodes := by
  by_cases hd : env.options.maxExpansionDepth ≤ x.work.provenance.depth id
  · simp only [inline, hd, if_true] at h
    cases h
  by_cases hl : env.options.maxExpandedNodes < (x.work.graph.merge body).2.nodeCount
  · simp only [inline, hd, hl, if_false, if_true] at h
    cases h
  exact ⟨Nat.lt_of_not_le hd, Nat.le_of_not_lt hl⟩

theorem inline_cases (env : Env) (x : Expansion) (id : NodeId) (n : ScriptNode) (body : ScriptGraph)
    (resolved : Option PinType) :
    (∃ detail, env.options.maxExpansionDepth ≤ x.work.provenance.depth id ∧
        inline env x id n body resolved = x.halt body.name detail id) ∨
      (∃ detail stats, inline env x id n body resolved =
        halt { x with work := mergedIn x.work id body, stats } body.name detail id) ∨
      x.work.provenance.depth id < env.options.maxExpansionDepth ∧
        ∃ w ids, (∀ k ∈ ids, k ∈ (x.work.graph.merge body).1.copies) ∧
          Edits id (resolvedIn x.work id body resolved) w ∧
          (inline env x id n body resolved).work = removeNodes w (ids ++ [id]) ∧
          (inline env x id n body resolved).halted = x.halted := by
  by_cases hd : env.options.maxExpansionDepth ≤ x.work.provenance.depth id
  · left
    refine ⟨s!"instances nest deeper than {env.options.maxExpansionDepth} levels", hd, ?_⟩
    simp only [inline, hd, if_true]
  · right
    by_cases hl : env.options.maxExpandedNodes < (x.work.graph.merge body).2.nodeCount
    · left
      refine ⟨s!"expanded graph exceeds {env.options.maxExpandedNodes} nodes",
        { x.stats with instances := x.stats.instances + 1 }, ?_⟩
      simp only [inline, hd, hl, if_false, if_true]
      rfl
    · right
      refine ⟨by omega, ?_⟩
      rw [inline_eq env x id n body resolved (by omega) (by omega)]
      extract_lets copies inputs outputs
      split
      · exact ⟨_, copies, fun _ hk => hk, .single (.report _ _ _ _), rfl, rfl⟩
      · have htunnel (side : TunnelSide) (k : NodeId)
            (hk : k ∈ (bodyTunnels x.work id body resolved side).head?.toList) :
            k ∈ copies :=
          (List.mem_filter.mp (List.mem_of_head? (Option.mem_toList.mp hk))).1
        obtain ⟨w, hw, hwork, hhalted⟩ :=
          connectBody_cases env (entered x id body resolved)
            ⟨id, n, body.name, inputs.head?, outputs.head?⟩ copies
        refine ⟨w, _, fun k hk => ?_, hw, hwork, hhalted⟩
        exact (List.mem_append.mp hk).elim (htunnel .input k) (htunnel .output k)

end VisualScript.Expansion
