import VisualScript.Proofs.Graph.Representation
import VisualScript.Proofs.Working.Validation

namespace VisualScript

namespace Graph

variable {κ : Type} {g : Graph κ}

/-- Every port lists the links that end at it. -/
structure Shown (g : Graph κ) : Prop where
  unfrayed : ∀ id, g.frayed id = false
  listed : ∀ {p : PortRef} {port : Port}, g.port? p = some port →
    (g.farEnds p).Perm ((g.links.filter fun l => l.near port.direction = p).map fun l => l.far
      port.direction)

/-- Links join ports of their role on two nodes, and every port lists the links that end at it. -/
structure Wired (g : Graph κ) : Prop extends Shown g where
  joins : ∀ l ∈ g.links, g.Admits l.source l.target l.role

theorem shown_of_unthreaded (h : g.threads = none) : g.Shown where
  unfrayed id := by rw [frayed, h, Option.any_none, Bool.and_false]
  listed hp := by
    have hperm := (edges_perm h hp).map Prod.snd
    rwa [List.map_map] at hperm

theorem Sound.wired (h : g.Sound) : g.Wired := ⟨shown_of_unthreaded h.tidy.unthreaded, h.joins⟩

theorem Shown.length_farEnds (h : g.Shown) {p : PortRef} {port : Port} (hp : g.port? p = some port) :
    (g.farEnds p).length = g.links.countP fun l => l.near port.direction = p := by
  rw [(h.listed hp).length_eq, List.length_map, List.countP_eq_length_filter]

theorem Shown.mem_farEnds (h : g.Shown) {p : PortRef} {port : Port} (hp : g.port? p = some port)
    {q : PortRef} :
    q ∈ g.farEnds p ↔ ∃ l ∈ g.links, l.near port.direction = p ∧ l.far port.direction = q := by
  simp only [(h.listed hp).mem_iff, List.mem_map, List.mem_filter, decide_eq_true_eq, and_assoc]

end Graph

namespace PinType

variable {s t : PinType}

/-- What a value may become on a link. Only control has no regard for the container. -/
inductive Flows : PinType → PinType → Prop
  | fromWildcard (c : Container) (t : PinType) : Flows ⟨.wildcard, c⟩ t
  | intoWildcard (s : PinType) (c : Container) : Flows s ⟨.wildcard, c⟩
  | exec (c c' : Container) : Flows ⟨.exec, c⟩ ⟨.exec, c'⟩
  | same (t : PinType) : Flows t t
  | byteToEnum (enumName : String) (c : Container) : Flows ⟨.byte, c⟩ ⟨.enum enumName, c⟩
  | enumToByte (enumName : String) (c : Container) : Flows ⟨.enum enumName, c⟩ ⟨.byte, c⟩
  | toRoot (cls : String) (c : Container) : Flows ⟨.object cls, c⟩ ⟨.object rootClass, c⟩

theorem flows_of_baseFlows {a b : BaseType} (h : baseFlows a b = true) (c : Container) :
    Flows ⟨a, c⟩ ⟨b, c⟩ := by
  unfold baseFlows at h
  rw [Bool.or_eq_true, decide_eq_true_eq] at h
  rcases h with rfl | h
  · exact .same _
  · split at h
    · exact .byteToEnum _ c
    · exact .enumToByte _ c
    · cases of_decide_eq_true h
      exact .toRoot _ c
    · cases h

theorem flowsInto_iff : s.flowsInto t = true ↔ s.Flows t := by
  obtain ⟨a, c⟩ := s
  obtain ⟨b, c'⟩ := t
  constructor
  · intro h
    unfold flowsInto at h
    split at h
    · next hwild =>
        rcases Bool.or_eq_true_iff.mp hwild with hwild | hwild
        · cases of_decide_eq_true hwild
          exact .fromWildcard c _
        · cases of_decide_eq_true hwild
          exact .intoWildcard _ c'
    · split at h
      · obtain ⟨ha, hb⟩ := Bool.and_eq_true_iff.mp h
        cases of_decide_eq_true ha
        cases of_decide_eq_true hb
        exact .exec c c'
      · obtain ⟨hc, hbase⟩ := Bool.and_eq_true_iff.mp h
        cases of_decide_eq_true hc
        exact flows_of_baseFlows hbase c
  · intro h
    cases h with
    | same => cases a <;> simp [flowsInto, isWildcard, isExec, baseFlows]
    | _ => simp [flowsInto, isWildcard, isExec, baseFlows]

/-- A value of the first type goes into an input of the second as it is. -/
structure Passes (s t : PinType) : Prop where
  flows : s.Flows t
  direct : ∀ interfaceName cls, s.base = .interface interfaceName → t.base ≠ .object cls

/-- Nothing but control passes from control. -/
theorem Passes.isExec (h : s.Passes t) (hs : s.isExec = true) (ht : t.isWildcard = false) :
    t.isExec = true := by
  cases h.flows with
  | exec | same => exact hs
  | intoWildcard => cases ht
  | fromWildcard | byteToEnum | enumToByte | toRoot => cases hs

theorem needsCast_eq_false_iff : s.needsCast t = false ↔
    ∀ interfaceName cls, s.base = .interface interfaceName → t.base ≠ .object cls := by
  rw [needsCast]
  split
  · next hs ht => exact iff_of_false Bool.false_ne_true.symm fun h => h _ _ hs ht
  · next h => exact iff_of_true rfl h

end PinType

namespace ScriptGraph

/-- Every node has a handler, control goes one way, every input reads one value at most, and the types are
settled and agree along the links. -/
structure WellTyped (r : Registry) (g : ScriptGraph) : Prop where
  handled : ∀ {id : NodeId} {n : ScriptNode}, g.node? id = some n → (r.handler? n).isSome = true
  controlOutput : ∀ {p : PortRef} {port : Port}, g.port? p = some port → port.is .control .output = true →
    (g.links.countP fun l => l.source = p) ≤ 1
  dataInput : ∀ {p : PortRef} {port : Port}, g.port? p = some port → port.is .data .input = true →
    (g.links.countP fun l => l.target = p) ≤ 1 ∧ port.type.isWildcard = false
  dataOutput : ∀ {p : PortRef} {port : Port}, g.port? p = some port → port.is .data .output = true →
    (∃ l ∈ g.links, l.source = p) → port.type.isWildcard = false
  passes : ∀ l ∈ g.links, l.role = .data → ∀ {source target : Port}, g.port? l.source = some source →
    g.port? l.target = some target → source.type.Passes target.type

end ScriptGraph

namespace Working

variable {g : ScriptGraph} {r : Registry} {n : ScriptNode} {p : PortRef} {port : Port}

theorem nodeIssues_isError_iff :
    (∀ i ∈ nodeIssues r n, i.isError = false) ↔ (r.handler? n).isSome = true := by
  have hunknown : (Issue.unknownNodeKind n.title n.kind.tag.display).isError = true := rfl
  have hdeprecated : (Issue.deprecatedNode n.title).isError = false := rfl
  cases hh : r.handler? n <;> cases hd : n.deprecated <;> simp [nodeIssues, hh, hd, hunknown, hdeprecated]

theorem flowIssue?_eq_none_iff {source : ScriptNode} {sourcePort : Port} :
    flowIssue? source sourcePort n port = none ↔ sourcePort.type.Passes port.type := by
  have hpasses : sourcePort.type.Passes port.type ↔
      sourcePort.type.flowsInto port.type = true ∧ sourcePort.type.needsCast port.type = false := by
    rw [PinType.flowsInto_iff, PinType.needsCast_eq_false_iff]
    exact ⟨fun h => ⟨h.flows, h.direct⟩, fun h => ⟨h.1, h.2⟩⟩
  rw [hpasses]
  cases hc : sourcePort.type.needsCast port.type <;> cases hf : sourcePort.type.flowsInto port.type <;>
    simp [flowIssue?, hc, hf]

theorem inputIssue?_eq_none_iff {links : List PortRef} (h : links.length ≤ 1) :
    inputIssue? g n port links = none ↔
      port.type.isWildcard = false ∧ ∀ q ∈ links, ∀ source, g.port? q = some source →
        source.type.Passes port.type := by
  unfold inputIssue?
  cases hwild : port.type.isWildcard with
  | true => simp
  | false =>
      -- Only the first link is looked at, but with one link at most this is all there is.
      rcases links with _ | ⟨q, _ | ⟨q', rest⟩⟩
      · simp
      · cases hq : g.port? q with
        | none => cases g.node? q.node <;> simp [hq]
        | some source =>
            obtain ⟨m, hm⟩ := Graph.exists_node_of_port? hq
            simp [hm, hq, flowIssue?_eq_none_iff]
      · exact absurd h (by simp)

theorem isError_of_mem_portIssues {id : NodeId} {q : UInt16 × Port} {i : Issue}
    (h : i ∈ portIssues g id n q) :
    i.isError = true := by
  have hflow {source : ScriptNode} {sourcePort : Port}
      (hi : flowIssue? source sourcePort n q.2 = some i) : i.isError = true := by
    rw [flowIssue?] at hi
    split at hi
    · exact Option.some.inj hi ▸ rfl
    · split at hi
      · exact Option.some.inj hi ▸ rfl
      · cases hi
  have hinput {links : List PortRef} (hi : inputIssue? g n q.2 links = some i) : i.isError = true := by
    unfold inputIssue? at hi
    split at hi
    · exact Option.some.inj hi ▸ rfl
    · split at hi
      · cases hi
      · split at hi
        · exact hflow hi
        · cases hi
  have hone {c : Prop} [Decidable c] {issue : Issue} (hissue : issue.isError = true)
      (hi : i ∈ if c then [issue] else []) :
      i.isError = true := List.mem_singleton.mp (List.mem_ite_nil_right.mp hi).2 ▸ hissue
  rw [portIssues] at h
  split at h
  · exact hone rfl h
  · cases h
  · rcases List.mem_append.mp h with h | h
    · exact hone rfl h
    · exact hinput (Option.mem_toList.mp h)
  · exact hone rfl h

theorem portIssues_controlOutput (h : g.Shown) (hp : g.port? p = some port)
    (hport : port.is .control .output = true) :
    portIssues g p.node n (p.index, port) = [] ↔ (g.links.countP fun l => l.source = p) ≤ 1 := by
  obtain ⟨hrole, hdirection⟩ := Port.is_iff.mp hport
  have hfan : 1 < (g.farEnds p).length ↔ ¬ (g.links.countP fun l => l.source = p) ≤ 1 := by
    rw [h.length_farEnds hp, hdirection]
    exact Nat.not_le.symm
  simp [portIssues, hrole, hdirection, hfan]

theorem portIssues_dataInput (h : g.Shown) (hp : g.port? p = some port)
    (hport : port.is .data .input = true) :
    portIssues g p.node n (p.index, port) = [] ↔
      (g.links.countP fun l => l.target = p) ≤ 1 ∧ port.type.isWildcard = false ∧
        ∀ l ∈ g.links, l.target = p → ∀ source, g.port? l.source = some source →
          source.type.Passes port.type := by
  obtain ⟨hrole, hdirection⟩ := Port.is_iff.mp hport
  have hfan : (g.farEnds p).length ≤ 1 ↔ (g.links.countP fun l => l.target = p) ≤ 1 := by
    rw [h.length_farEnds hp, hdirection]
    rfl
  have hfar : (∀ q ∈ g.farEnds p, ∀ source, g.port? q = some source → source.type.Passes port.type) ↔
      ∀ l ∈ g.links, l.target = p → ∀ source, g.port? l.source = some source →
        source.type.Passes port.type := by
    simp only [h.mem_farEnds hp, hdirection]
    exact ⟨fun hq l hl ht => hq _ ⟨l, hl, ht, rfl⟩, fun hall _ ⟨l, hl, ht, hq⟩ => hq ▸ hall l hl ht⟩
  have hfound : portIssues g p.node n (p.index, port) = [] ↔
      (g.farEnds p).length ≤ 1 ∧ inputIssue? g n port (g.farEnds p) = none := by
    simp [portIssues, hrole, hdirection]
  rw [hfound, ← hfan, ← hfar]
  exact and_congr_right inputIssue?_eq_none_iff

theorem portIssues_dataOutput (h : g.Shown) (hp : g.port? p = some port)
    (hport : port.is .data .output = true) :
    portIssues g p.node n (p.index, port) = [] ↔
      ((∃ l ∈ g.links, l.source = p) → port.type.isWildcard = false) := by
  obtain ⟨hrole, hdirection⟩ := Port.is_iff.mp hport
  have hlinked : (g.farEnds p).isEmpty = false ↔ ∃ l ∈ g.links, l.source = p := by
    simp only [List.isEmpty_eq_false_iff_exists_mem, h.mem_farEnds hp, hdirection]
    exact ⟨fun ⟨_, l, hl, hs, _⟩ => ⟨l, hl, hs⟩, fun ⟨l, hl, hs⟩ => ⟨_, l, hl, hs, rfl⟩⟩
  rw [portIssues, ← hlinked]
  cases hwild : port.type.isWildcard <;> simp [hrole, hdirection]

/-- What is asked of a port and the links at it. -/
structure Fits (g : ScriptGraph) (p : PortRef) (port : Port) : Prop where
  controlOutput : port.is .control .output = true → (g.links.countP fun l => l.source = p) ≤ 1
  dataInput : port.is .data .input = true → (g.links.countP fun l => l.target = p) ≤ 1 ∧
    port.type.isWildcard = false ∧
    ∀ l ∈ g.links, l.target = p → ∀ source, g.port? l.source = some source → source.type.Passes port.type
  dataOutput : port.is .data .output = true → (∃ l ∈ g.links, l.source = p) → port.type.isWildcard = false

theorem portIssues_eq_nil_iff (h : g.Shown) (hp : g.port? p = some port) :
    portIssues g p.node n (p.index, port) = [] ↔ Fits g p port := by
  constructor
  · intro hnone
    exact ⟨fun hport => (portIssues_controlOutput h hp hport).mp hnone,
      fun hport => (portIssues_dataInput h hp hport).mp hnone,
      fun hport => (portIssues_dataOutput h hp hport).mp hnone⟩
  · intro hfits
    cases hrole : port.role <;> cases hdirection : port.direction
    case control.input => simp [portIssues, hrole, hdirection]
    all_goals have hport := Port.is_iff.mpr ⟨hrole, hdirection⟩
    case control.output => exact (portIssues_controlOutput h hp hport).mpr (hfits.controlOutput hport)
    case data.input => exact (portIssues_dataInput h hp hport).mpr (hfits.dataInput hport)
    case data.output => exact (portIssues_dataOutput h hp hport).mpr (hfits.dataOutput hport)

/-- Where validation finds no error, everything that is asked of the ports holds. -/
theorem fits_of_valid {w : Working} (h : w.graph.Shown)
    (hvalid : (w.validateGraph r).hasErrors = false) (p : PortRef) (port : Port)
    (hp : w.graph.port? p = some port) : Fits w.graph p port := by
  obtain ⟨n, hn, hport⟩ := Option.bind_eq_some_iff.mp hp
  refine (portIssues_eq_nil_iff (n := n) h hp).mp (List.eq_nil_iff_forall_not_mem.mpr fun i hi => ?_)
  have herror := portIssues_of_valid hvalid hn (Node.mem_indexed_of_port? hport) hi
  exact Bool.false_ne_true (herror.symm.trans (isError_of_mem_portIssues hi))

theorem wellTyped_iff (h : g.Wired) : g.WellTyped r ↔
    (∀ id n, g.node? id = some n → (r.handler? n).isSome = true) ∧ ∀ p port, g.port? p = some port →
      Fits g p port := by
  constructor
  · intro ht
    refine ⟨fun _ _ => ht.handled, fun p port hp => ⟨ht.controlOutput hp, fun hin => ?_, ht.dataOutput hp⟩⟩
    refine ⟨(ht.dataInput hp hin).1, (ht.dataInput hp hin).2, fun l hl htarget source hs => ?_⟩
    obtain ⟨port', hp', hin'⟩ := (h.joins l hl).target
    rw [htarget, hp, Option.some.injEq] at hp'
    subst hp'
    exact ht.passes l hl ((Port.is_iff.mp hin').1.symm.trans (Port.is_iff.mp hin).1) hs (htarget ▸ hp)
  · rintro ⟨hhandled, hfits⟩
    refine ⟨hhandled _ _, fun hp => (hfits _ _ hp).controlOutput, fun hp hin => ?_,
      fun hp => (hfits _ _ hp).dataOutput, ?_⟩
    · exact ⟨((hfits _ _ hp).dataInput hin).1, ((hfits _ _ hp).dataInput hin).2.1⟩
    · intro l hl hdata source target hs htarget
      obtain ⟨port, hp, hin⟩ := (h.joins l hl).target
      rw [htarget, Option.some.injEq] at hp
      subst hp
      exact ((hfits _ _ htarget).dataInput (hdata ▸ hin)).2.2 l hl rfl source hs

theorem nodeFindings_isError_iff (w : Working) (id : NodeId) :
    (∀ d ∈ w.nodeFindings r (id, n), d.isError = false) ↔
    (r.handler? n).isSome = true ∧ ∀ q ∈ n.indexed, portIssues w.graph id n q = [] := by
  rw [nodeFindings, List.forall_mem_append]
  refine and_congr ?_ ?_
  · rw [List.forall_mem_map]
    exact nodeIssues_isError_iff
  · simp only [List.forall_mem_flatMap, portFindings, List.forall_mem_map]
    refine forall₂_congr fun q _ => ?_
    rw [List.eq_nil_iff_forall_not_mem]
    exact forall_congr' fun i =>
      ⟨fun h hi => Bool.false_ne_true ((h hi).symm.trans (isError_of_mem_portIssues hi)),
      fun h hi => absurd hi h⟩

theorem portIssues_indexed_iff (h : g.Shown) {id : NodeId} (hn : g.node? id = some n)
    (hfew : n.ports.length ≤ 65536) :
    (∀ q ∈ n.indexed, portIssues g id n q = []) ↔ ∀ i port, g.port? ⟨id, i⟩ = some port →
      Fits g ⟨id, i⟩ port := by
  rw [Prod.forall]
  refine forall₂_congr fun i port => ?_
  have hmem : (i, port) ∈ n.indexed ↔ g.port? ⟨id, i⟩ = some port := by
    rw [Node.mem_indexed hfew, Graph.port?, hn, Option.bind_some]
  rw [hmem]
  exact forall_congr' fun hp => portIssues_eq_nil_iff h hp

/-- Validation leaves the graph as it is, and finds an error exactly if the graph is not well typed. -/
theorem validateGraph_wellTyped_iff (r : Registry) (w : Working) : (w.validateGraph r).graph = w.graph ∧
    (w.graph.Wired → (∀ id n, w.graph.node? id = some n → n.ports.length ≤ 65536) →
      ∃ later, w.validateGraph r = { w with diagnostics := w.diagnostics ++ later } ∧
        ((∀ d ∈ later, d.isError = false) ↔ w.graph.WellTyped r)) := by
  refine ⟨(noted_validateGraph r w).graph, fun hw hfew => ⟨_, validateGraph_eq hw.unfrayed r, ?_⟩⟩
  rw [wellTyped_iff hw]
  have hnodes : (∀ d ∈ w.graph.nodes.flatMap (w.nodeFindings r), d.isError = false) ↔
      ∀ id n, w.graph.node? id = some n →
      (r.handler? n).isSome = true ∧ ∀ q ∈ n.indexed, portIssues w.graph id n q = [] := by
    rw [List.forall_mem_flatMap, Prod.forall]
    exact forall₂_congr fun id n => imp_congr Graph.mem_nodes (w.nodeFindings_isError_iff id)
  rw [hnodes]
  constructor
  · intro hnone
    refine ⟨fun id n hn => (hnone id n hn).1, fun p port hp => ?_⟩
    obtain ⟨n, hn⟩ := Graph.exists_node_of_port? hp
    exact (portIssues_indexed_iff hw.toShown hn (hfew _ n hn)).mp (hnone _ n hn).2 p.index port hp
  · rintro ⟨hhandled, hfits⟩ id n hn
    exact ⟨hhandled id n hn, (portIssues_indexed_iff hw.toShown hn (hfew id n hn)).mpr
      fun _ _ => hfits _ _⟩

/-- A call that takes a byte and reads an enumerator. It is deprecated, which is no error. -/
def lever : Working :=
  let pull :=
    { (ScriptNode.call "pull").addPorts [.dataIn "mode" ⟨.byte, .single⟩] with deprecated := true }
  let g := (((Graph.addNode { name := "lever" } (ScriptNode.entry "lever")).2.addNode pull).2.addNode
    (ScriptNode.variableGet "mode" ⟨.enum "Mode", .single⟩)).2
  .ofGraph "lever" .function ((g.attempt ⟨0, 0⟩ ⟨1, 0⟩).attempt ⟨2, 0⟩ ⟨1, 2⟩) ∅

theorem lever_wellTyped :
    lever.graph.Wired ∧ lever.graph.links.length = 2 ∧ lever.graph.WellTyped .standard := by
  have hwired : lever.graph.Wired :=
    ((((((Graph.Built.empty "lever").addNode _).addNode _).addNode _).connect ⟨0, 0⟩ ⟨1, 0⟩).connect
      ⟨2, 0⟩ ⟨1, 2⟩).sound.1.wired
  have hfew : ∀ id n, lever.graph.node? id = some n → n.ports.length ≤ 65536 :=
    Graph.forall_node_of_slots (by cbv)
  have hvalid : (lever.validateGraph .standard).hasErrors = false := by cbv
  obtain ⟨later, hlater, hiff⟩ := (validateGraph_wellTyped_iff .standard lever).2 hwired hfew
  rw [hlater, hasErrors, List.any_append, Bool.or_eq_false_iff] at hvalid
  exact ⟨hwired, by cbv, hiff.mp fun d hd => Bool.eq_false_iff.mpr (List.any_eq_false.mp hvalid.2 d hd)⟩

end Working

end VisualScript
