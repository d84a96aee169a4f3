import VisualScript.Proofs.Code.Flow
import VisualScript.Proofs.Graph.Ports
import VisualScript.Proofs.Working.Handlers
import VisualScript.Working.Phases

namespace VisualScript

def Straight (code : List Statement) : Prop := ∀ s ∈ code, s.isStraight = true

theorem straight_single {s : Statement} (h : s.isStraight = true) :
    Straight [s] := List.forall_mem_singleton.mpr h

theorem Straight.append {a b : List Statement} (ha : Straight a) (hb : Straight b) : Straight (a ++ b) :=
  List.forall_mem_append.mpr ⟨ha, hb⟩

theorem straight_flatten {codes : List (List Statement)} (h : ∀ code ∈ codes, Straight code) :
    Straight codes.flatten := by
  intro s hs
  obtain ⟨code, hcode, hs⟩ := List.mem_flatten.mp hs
  exact h code hcode s hs

namespace Graph

/-- The node linked to the output of that name. -/
def behind? (g : ScriptGraph) (id : NodeId) (output : String) : Option NodeId :=
  ((g.findPort? id output .output).bind fun p => (g.farEnds p).head?).map PortRef.node

def onward (g : ScriptGraph) (id : NodeId) (n : ScriptNode) : List NodeId :=
  (n.portsWhere .control .output).filterMap fun p => (g.farEnds ⟨id, p.1⟩).head?.map PortRef.node

end Graph

namespace Working

def IsLiteral (w : Working) (c : TermId) (type : PinType) (text : String) : Prop :=
  ∃ term, w.terms.get? c = some term ∧ term.kind = .literal ∧ term.type = type ∧ term.literal = some text

/-- The term that an input reads: that of the output linked to it, or a literal of its default. -/
def Feeds (w : Working) (p : PortRef) (c : TermId) : Prop := match w.source? p with
  | some term => c = term
  | none => w.IsLiteral c (w.fallback p).1 (w.fallback p).2

/-- The term a branch asks. A branch that has no condition is never true. -/
def Decides (w : Working) (id : NodeId) (n : ScriptNode) (c : TermId) : Prop :=
  match n.findPort? "condition" .input with
  | some index => w.Feeds ⟨id, index⟩ c
  | none => w.IsLiteral c ⟨.bool, .single⟩ "false"

/-- Where a node leads, as its kind and its links tell. -/
def Leaves (w : Working) (id : NodeId) (n : ScriptNode) (e : Exit) : Prop :=
  match n.kind with
  | .functionResult => e = .ret
  | .branch => ∃ c, w.Decides id n c ∧ e =
      .branch c (w.graph.behind? id "true") (w.graph.behind? id "false")
  | .sequence => e = .flow (w.graph.onward id n)
  | .functionEntry spec => match spec.computedDispatch, (w.dataOutputs id).head? with
    | true, some index => e = .dispatch index
    | _, _ => e = .flow (w.graph.behind? id "then").toList
  | _ => e = .flow (w.graph.behind? id "then").toList

variable {w w' : Working}

theorem Grows.dataOutputs (h : w.Grows w') (id : NodeId) : w'.dataOutputs id = w.dataOutputs id := by
  simp only [Working.dataOutputs, h.graph, TermTable.net?, h.terms.nets]

theorem Grows.isLiteral (h : w.Grows w') {c : TermId} {type : PinType} {text : String}
    (hc : w.IsLiteral c type text) :
    w'.IsLiteral c type text := by
  obtain ⟨term, hterm, hkind, htype, htext⟩ := hc
  obtain ⟨term', hterm', hkind', htype', htext'⟩ := h.terms.term hterm
  exact ⟨term', hterm', hkind'.trans hkind, htype'.trans htype, htext'.trans htext⟩

theorem Grows.source? (h : w.Grows w') (p : PortRef) : w'.source? p = w.source? p := by
  have hnet : w'.terms.net? = w.terms.net? := funext fun p => by
    rw [TermTable.net?, TermTable.net?, h.terms.nets]
  rw [Working.source?, Working.source?, h.graph, hnet]

theorem Grows.fallback (h : w.Grows w') (p : PortRef) : w'.fallback p = w.fallback p := by
  rw [Working.fallback, Working.fallback, h.graph]

theorem Grows.feeds (h : w.Grows w') {p : PortRef} {c : TermId} (hc : w.Feeds p c) : w'.Feeds p c := by
  unfold Feeds at hc ⊢
  rw [h.source?, h.fallback]
  split at hc
  · exact hc
  · exact h.isLiteral hc

theorem Grows.decides (h : w.Grows w') {id : NodeId} {n : ScriptNode} {c : TermId}
    (hc : w.Decides id n c) :
    w'.Decides id n c := by
  unfold Decides at hc ⊢
  split at hc
  · exact h.feeds hc
  · exact h.isLiteral hc

theorem Grows.leaves (h : w.Grows w') {id : NodeId} {n : ScriptNode} {e : Exit} (he : w.Leaves id n e) :
    w'.Leaves id n e := by
  unfold Leaves at he ⊢
  rw [h.graph, h.dataOutputs]
  split at he
  case h_2 =>
      obtain ⟨c, hc, rfl⟩ := he
      exact ⟨c, h.decides hc, rfl⟩
  all_goals exact he

/-- The code of a node: it runs straight on to the jumps of an exit that the graph tells. -/
def Exiting (w : Working) (id : NodeId) (n : ScriptNode) (code : List Statement) : Prop :=
  ∃ front e, code = front ++ e.code ∧ Straight front ∧ w.Leaves id n e

theorem target_behind? (w : Working) (id : NodeId) (output : String) :
    Exit.target (w.graph.behind? id output) = w.follow id output := by
  rw [Graph.behind?, follow]
  cases (w.graph.findPort? id output .output).bind fun p => (w.graph.farEnds p).head? <;> rfl

theorem code_behind? (w : Working) (id : NodeId) (output : String) :
    (Exit.flow (w.graph.behind? id output).toList).code = [w.followJump id output] := by
  rw [followJump, ← target_behind?]
  cases w.graph.behind? id output <;> rfl

end Working

namespace Build

variable {α β : Type} {P : α → Prop}

def Yields (P : α → Prop) (x : Build α) : Prop := ∀ w, P (x w).1

theorem Yields.bind {Q : β → Prop} {x : Build α} {f : α → Build β} (h : Yields P x)
    (hf : ∀ a, P a → Yields Q (f a)) :
    Yields Q (x >>= f) := fun w => hf _ (h w) (x w).2

theorem Yields.any (x : Build α) : Yields (fun _ => True) x := fun _ => trivial

theorem Yields.mapM {Q : β → Prop} {f : α → Build β} (hf : ∀ a, Yields Q (f a)) (l : List α) :
    Yields (fun bs => ∀ b ∈ bs, Q b) (l.mapM f) := by
  intro w
  induction l generalizing w with
  | nil => exact fun _ hb => absurd hb List.not_mem_nil
  | cons a l ih =>
      rw [mapM_cons]
      exact List.forall_mem_cons.mpr ⟨hf a w, ih _⟩

theorem Yields.pure {a : α} (h : P a) : Yields P (Pure.pure a : Build α) := fun _ => h

def Exits (id : NodeId) (n : ScriptNode) (x : Build (List Statement)) : Prop :=
  ∀ w, (x w).2.Exiting id n (x w).1

theorem Exits.bind {id : NodeId} {n : ScriptNode} {x : Build α} {f : α → Build (List Statement)}
    (h : Yields P x) (hf : ∀ a, P a → Exits id n (f a)) :
    Exits id n (x >>= f) := fun w => hf _ (h w) (x w).2

end Build

namespace Handler

open Build Working

variable {env : Env} {id : NodeId} {n : ScriptNode}

theorem andThen_exiting {w : Working} (h : w.Leaves id n (.flow (w.graph.behind? id "then").toList))
    {code : List Statement} (hcode : Straight code) :
    (andThen id code w).2.Exiting id n (andThen id code w).1 :=
  ⟨code, .flow (w.graph.behind? id "then").toList, by rw [code_behind?]; rfl, hcode, h⟩

theorem andThen_exits (h : ∀ w : Working, w.Leaves id n (.flow (w.graph.behind? id "then").toList))
    {code : List Statement} (hcode : Straight code) :
    Exits id n (andThen id code) := fun w => andThen_exiting (h w) hcode

theorem initLocal_straight (l : LocalDecl) : Yields Straight (initLocal l) := by
  refine .bind (.any _) fun w _ => ?_
  split
  · exact .bind (.any _) fun _ _ => .pure (straight_single rfl)
  · exact .pure (List.forall_mem_nil _)

theorem functionEntry_exits {spec : EntrySpec} (hk : n.kind = .functionEntry spec) :
    Exits id n (functionEntry.emit env id n) := by
  simp only [functionEntry, hk]
  refine .bind (Yields.mapM initLocal_straight _) fun codes hcodes w => ?_
  have hstraight := straight_flatten hcodes
  simp only [bind_apply, get_apply]
  cases hdispatch : spec.computedDispatch with
  | false => exact andThen_exiting (by simp [Leaves, hk, hdispatch]) hstraight
  | true =>
      cases hindex : (w.dataOutputs id).head? with
      | none => exact andThen_exiting (by simp [Leaves, hk, hindex]) hstraight
      | some index =>
          exact ⟨codes.flatten, .dispatch index, rfl, hstraight,
            by simp [Leaves, hk, hdispatch, hindex]⟩

theorem functionResult_exits (hk : n.kind = .functionResult) :
    Exits id n (functionResult.emit env id n) := by
  refine .bind (Yields.mapM (Q := Straight) (fun p => .bind (.any _) fun w _ => ?_) _)
    fun stores hstores w => ?_
  · split
    · exact .bind (.any _) fun _ _ => .pure (straight_single rfl)
    · exact .pure (List.forall_mem_nil _)
  · exact ⟨stores.flatten, .ret, rfl, straight_flatten hstores, by simp [Leaves, hk]⟩

theorem event_exits {spec : EventSpec} (hk : n.kind = .event spec) : Exits id n (event.emit env id n) :=
  andThen_exits (fun w => by simp [Leaves, hk]) (List.forall_mem_nil _)

theorem callFunction_exits {function : String} (hk : n.kind = .callFunction function)
    (hc : n.hasControl = true) :
    Exits id n (callFunction.emit env id n) := by
  simp only [callFunction, hk, hc, if_true]
  refine .bind (.any _) fun args _ => .bind (.any _) fun w _ => ?_
  exact andThen_exits (fun w => by simp [Leaves, hk]) (straight_single rfl)

theorem callEventGraph_exits {event : String} (hk : n.kind = .callEventGraph event) :
    Exits id n (callEventGraph.emit env id n) := by
  simp only [callEventGraph, hk]
  exact andThen_exits (fun w => by simp [Leaves, hk]) (straight_single rfl)

theorem variableSet_exits {name : String} (hk : n.kind = .variableSet name) :
    Exits id n (variableSet.emit env id n) := by
  have hthen (w : Working) : w.Leaves id n (.flow (w.graph.behind? id "then").toList) := by
    simp [Leaves, hk]
  simp only [variableSet, hk]
  refine .bind (.any _) fun dest _ => ?_
  split
  · exact .bind (.any _) fun _ _ => andThen_exits hthen (straight_single rfl)
  · exact andThen_exits hthen (List.forall_mem_nil _)

theorem persistentFrameAssign_exits (hk : n.kind = .persistentFrameAssign) :
    Exits id n (persistentFrameAssign.emit env id n) := by
  refine .bind (Yields.mapM (Q := fun s => s.isStraight = true) (fun p => ?_) _) fun stores hstores => ?_
  · exact .bind (.any _) fun _ _ => .bind (.any _) fun _ _ => .pure rfl
  · exact andThen_exits (fun w => by simp [Leaves, hk]) hstores

theorem tunnelBoundary_exits {site : BoundarySite} (hk : n.kind = .tunnelBoundary site) :
    Exits id n (tunnelBoundary.emit env id n) := by
  simp only [tunnelBoundary, hk]
  exact .bind (.any _) fun _ _ => andThen_exits (fun w => by simp [Leaves, hk]) (straight_single rfl)

theorem literal_isLiteral (type : PinType) (value : String) (w : Working) :
    (literal type value w).2.IsLiteral (literal type value w).1 type value := by
  refine ⟨_, List.getElem?_concat_length, rfl, rfl, rfl⟩

theorem inputTerm_feeds (p : PortRef) (w : Working) : (inputTerm p w).2.Feeds p (inputTerm p w).1 := by
  have hgrows := inputTerm_respects p w
  unfold Feeds
  rw [hgrows.source?, hgrows.fallback]
  cases hsource : w.source? p with
  | some term => rw [inputTerm_of_source hsource]
  | none =>
      rw [inputTerm_of_no_source hsource]
      exact literal_isLiteral _ _ _

theorem branch_exits (hk : n.kind = .branch) : Exits id n (branch.emit env id n) := by
  have hexits (x : Build TermId) (hx : ∀ w, (x w).2.Decides id n (x w).1) : Exits id n do
      let condition ← x
      let w ← get
      return [.gotoIfNot condition (w.follow id "false"), w.followJump id "true"] := by
    intro w
    have hleaves : (x w).2.Leaves id n
        (.branch (x w).1 ((x w).2.graph.behind? id "true") ((x w).2.graph.behind? id "false")) := by
      simpa [Leaves, hk] using hx w
    refine ⟨[], _, ?_, List.forall_mem_nil _, hleaves⟩
    rw [Exit.code, target_behind?, target_behind?]
    rfl
  simp only [branch]
  split
  · next index hindex => exact hexits _ fun w => by simpa [Decides, hindex] using inputTerm_feeds _ w
  · next hindex => exact hexits _ fun w => by simpa [Decides, hindex] using literal_isLiteral _ _ w

theorem filter_target {α : Type} (f : α → Option NodeId) (l : List α) :
    ((l.map fun a => Exit.target (f a)).filter fun t => t ≠ .endOfThread) = (l.filterMap f).map .node := by
  induction l with
  | nil => rfl
  | cons a rest ih => cases h : f a <;> simpa [Exit.target, h] using ih

theorem sequence_code (w : Working) : sequence.emit env id n w =
    ((Exit.flow ((n.portsWhere .control .output).filterMap fun p => w.graph.behind? id
      p.2.name)).code, w) := by
  have htargets : (((n.portsWhere .control .output).map fun p => w.follow id p.2.name).filter
      fun t => t ≠ .endOfThread) =
      ((n.portsWhere .control .output).filterMap fun p => w.graph.behind? id p.2.name).map .node := by
    rw [List.map_congr_left fun p _ => (target_behind? w id p.2.name).symm]
    exact filter_target _ _
  simp only [sequence, bind_apply, get_apply, htargets]
  cases (n.portsWhere .control .output).filterMap fun p => w.graph.behind? id p.2.name with
  | nil => rfl
  | cons first rest => simp [Exit.code, Statement.jump, Function.comp_def]

theorem onward_eq {g : ScriptGraph} (hn : g.node? id = some n) (hapart : n.NamedApart .output) :
    g.onward id n = (n.portsWhere .control .output).filterMap fun p => g.behind? id p.2.name := by
  refine List.filterMap_congr fun p hp => ?_
  obtain ⟨hmem, his⟩ := List.mem_filter.mp hp
  have hport := (Node.mem_indexed hapart.few).mp hmem
  have hfind : n.findPort? p.2.name .output = some p.1 :=
    hapart.findPort?.mpr ⟨p.2, hport, rfl, by simpa [Port.is] using (Bool.and_eq_true_iff.mp his).2⟩
  rw [Graph.behind?, Graph.findPort?, hn, Option.bind_some, hfind]
  rfl

theorem sequence_exiting {w : Working} (hk : n.kind = .sequence) (hn : w.graph.node? id = some n)
    (hapart : n.NamedApart .output) :
    (sequence.emit env id n w).2.Exiting id n (sequence.emit env id n w).1 := by
  rw [sequence_code, ← onward_eq hn hapart]
  exact ⟨[], _, rfl, List.forall_mem_nil _, by simp [Leaves, hk]⟩

theorem callFunction_straight {function : String} (hk : n.kind = .callFunction function)
    (hc : n.hasControl = false) :
    Yields Straight (callFunction.emit env id n) := by
  simp only [callFunction, hk, hc]
  exact .bind (.any _) fun _ _ => .bind (.any _) fun _ _ => .pure (straight_single rfl)

theorem makeArray_straight : Yields Straight (makeArray.emit env id n) := by
  refine .bind (.any _) fun _ _ => .bind (.any _) fun w _ => ?_
  split
  · exact .pure (straight_single rfl)
  · exact .pure (List.forall_mem_nil _)

theorem enumLiteral_straight : Yields Straight (enumLiteral.emit env id n) := by
  refine .bind (.any _) fun w _ => ?_
  split
  · exact .bind (.any _) fun _ _ => .pure (straight_single rfl)
  · exact .pure (List.forall_mem_nil _)

end Handler

namespace NodeKind

def isValue : NodeKind → Bool
  | .callFunction _ | .variableGet _ | .literal | .makeArray | .enumLiteral _ | .comment => true
  | _ => false

def isAction : NodeKind → Bool
  | .functionEntry _ | .functionResult | .event _ | .callFunction _ | .variableSet _ | .branch | .sequence
  | .tunnelBoundary _ | .persistentFrameAssign | .callEventGraph _ => true
  | _ => false

end NodeKind

namespace Registry

variable {env : Env} {id : NodeId} {n : ScriptNode} {w : Working}

theorem emitNode_eq {r : Registry} {h : Handler} (hn : w.graph.node? id = some n)
    (hh : r.handler? n = some h) :
    r.emitNode env id w = h.emit env id n w := by
  simp only [emitNode, Build.bind_apply, Build.get_apply, hn, hh]

theorem emitNode_straight (hn : w.graph.node? id = some n) (hv : n.kind.isValue = true)
    (hc : n.kind.tag = .callFunction → n.hasControl = false) :
    Straight (standard.emitNode env id w).1 := by
  have hh := Handler.handler?_standard n
  cases hk : n.kind <;> rw [hk] at hh hv hc
  case callFunction => exact emitNode_eq hn hh ▸ Handler.callFunction_straight hk (hc rfl) w
  case variableGet | literal | comment => exact emitNode_eq hn hh ▸ List.forall_mem_nil _
  case makeArray => exact emitNode_eq hn hh ▸ Handler.makeArray_straight w
  case enumLiteral => exact emitNode_eq hn hh ▸ Handler.enumLiteral_straight w
  all_goals cases hv

theorem emitNode_exiting (hn : w.graph.node? id = some n) (ha : n.kind.isAction = true)
    (hc : n.kind.tag = .callFunction → n.hasControl = true)
    (hapart : n.kind.tag = .sequence → n.NamedApart .output) :
    (standard.emitNode env id w).2.Exiting id n (standard.emitNode env id w).1 := by
  have hh := Handler.handler?_standard n
  cases hk : n.kind <;> rw [hk] at hh ha hc hapart
  case functionEntry => exact emitNode_eq hn hh ▸ Handler.functionEntry_exits hk w
  case functionResult => exact emitNode_eq hn hh ▸ Handler.functionResult_exits hk w
  case event => exact emitNode_eq hn hh ▸ Handler.event_exits hk w
  case callFunction => exact emitNode_eq hn hh ▸ Handler.callFunction_exits hk (hc rfl) w
  case variableSet => exact emitNode_eq hn hh ▸ Handler.variableSet_exits hk w
  case branch => exact emitNode_eq hn hh ▸ Handler.branch_exits hk w
  case sequence => exact emitNode_eq hn hh ▸ Handler.sequence_exiting hk hn (hapart rfl)
  case tunnelBoundary => exact emitNode_eq hn hh ▸ Handler.tunnelBoundary_exits hk w
  case persistentFrameAssign => exact emitNode_eq hn hh ▸ Handler.persistentFrameAssign_exits hk w
  case callEventGraph => exact emitNode_eq hn hh ▸ Handler.callEventGraph_exits hk w
  all_goals cases ha

end Registry

end VisualScript
