import VisualScript.Graph.Basic

namespace VisualScript

/-- Why a graph refuses an edit. -/
inductive GraphError where
  | nodeNotFound (id : NodeId)
  | portNotFound (port : PortRef)
  | selfLink (id : NodeId)
  | roleMismatch (a b : Port)
  | sameDirection (a b : Port)
deriving DecidableEq

def GraphError.message : GraphError → String
  | .nodeNotFound id => "node not found: NodeId(" ++ toString id ++ ")"
  | .portNotFound port => "port not found: " ++ port.text
  | .selfLink id => "invalid edge: cannot link node " ++ toString id ++ " to itself"
  | .roleMismatch a b =>
      "invalid edge: cannot link " ++ a.role.name ++ " port '" ++ a.name ++ "' to " ++ b.role.name ++
        " port '" ++ b.name ++ "'"
  | .sameDirection a b =>
      "invalid edge: cannot link '" ++ a.name ++ "' to '" ++ b.name ++ "': both ports are " ++
        a.direction.name

namespace Graph

variable {κ : Type}

/-- The links at a port with their far ends, sorted by far end; of equal far ends the newest first. -/
def edges (g : Graph κ) (p : PortRef) : List (LinkId × PortRef) :=
  match g.port? p with
  | none => []
  | some port =>
      let d := port.direction
      (((g.linksAt d p.node).filter fun l => (l.near d).index = p.index).map
        fun l => (l.id, l.far d)).mergeSort
        fun a b => a.2.le b.2

/-- Whether the links at a port cannot be listed. -/
def frayedAt (g : Graph κ) (p : PortRef) : Bool :=
  g.frayed p.node && (g.port? p).any fun port => port.direction = .input

/-- The ports linked to a port. -/
def farEnds (g : Graph κ) (p : PortRef) : List PortRef := (g.edges p).map Prod.snd

def isLinked (g : Graph κ) (p : PortRef) : Bool := !(g.edges p).isEmpty

/-- Every link by its output port, in authoring order of the nodes: its id and its two ends. -/
def linkTable (g : Graph κ) : List (LinkId × PortRef × PortRef) :=
  g.nodes.flatMap fun n => (n.2.indexed.filter fun p => p.2.direction = .output).flatMap fun p =>
    (g.edges ⟨n.1, p.1⟩).map fun e => (e.1, ⟨n.1, p.1⟩, e.2)

/-- The output and the input port of an admissible link, whichever is named first. -/
def checkLink (g : Graph κ) (a b : PortRef) : Except GraphError (PortRef × PortRef × Role) :=
  match g.port? a, g.port? b with
  | none, _ => .error (.portNotFound a)
  | some _, none => .error (.portNotFound b)
  | some pa, some pb =>
      if a.node = b.node then .error (.selfLink a.node)
      else if pa.role ≠ pb.role then .error (.roleMismatch pa pb)
      else match pa.direction, pb.direction with
        | .output, .input => .ok (a, b, pa.role)
        | .input, .output => .ok (b, a, pa.role)
        | .output, .output => .error (.sameDirection pa pb)
        | .input, .input => .error (.sameDirection pa pb)

/-- Links two ports. A pair that is linked already keeps its link. -/
def connect (g : Graph κ) (a b : PortRef) : Except GraphError (LinkId × Graph κ) :=
  match g.checkLink a b with
  | .error e => .error e
  | .ok (source, target, role) =>
      match (g.edges source).find? fun e => e.2 = target with
      | some e => .ok (e.1, g)
      | none => .ok (g.addLink source target role)

/-- Removes every link of a port. -/
def disconnect (g : Graph κ) (p : PortRef) : Graph κ :=
  (g.edges p).foldl (fun g e => g.removeLink e.1) g

/-- The link between two ports, if there is one. -/
def linkBetween? (g : Graph κ) (a b : PortRef) : Option LinkId :=
  ((g.edges a).find? fun e => e.2 = b).map Prod.fst

def disconnectPair (g : Graph κ) (a b : PortRef) : Graph κ :=
  match g.linkBetween? a b with
  | some id => g.removeLink id
  | none => g

/-- Links a port to each of the far ends in turn, up to the first that is refused. What was linked
before it stays. -/
def connectAll (g : Graph κ) (p : PortRef) : List PortRef → Graph κ × Except GraphError Unit
  | [] => (g, .ok ())
  | far :: rest =>
      match g.connect p far with
      | .error e => (g, .error e)
      | .ok (_, g) => connectAll g p rest

/-- Takes every link off one port and puts it on another. -/
def moveLinks (g : Graph κ) (old new : PortRef) : Graph κ × Except GraphError Unit :=
  (g.disconnect old).connectAll new (g.farEnds old)

def copyLinks (g : Graph κ) (old new : PortRef) : Graph κ × Except GraphError Unit :=
  g.connectAll new (g.farEnds old)

/-- A neighbour together with what it is sorted by: the port on this side and the order key. -/
structure Neighbour where
  port : UInt16
  order : Nat
  node : NodeId

def Neighbour.le (a b : Neighbour) : Bool :=
  a.port < b.port || (a.port = b.port && (a.order < b.order || (a.order = b.order && a.node ≤ b.node)))

/-- Sorts neighbours and names each node once. -/
def distinct (found : List Neighbour) : List NodeId :=
  ((found.mergeSort Neighbour.le).map Neighbour.node).eraseDups

def orderOf (g : Graph κ) (id : NodeId) : Nat := match g.node? id with
  | some n => n.order
  | none => 4294967295

/-- The neighbours along links of one role at one side of a node. -/
def neighbours (g : Graph κ) (id : NodeId) (role : Role) (d : Direction) : List Neighbour :=
  if g.contains id then
    ((g.linksAt d id).filter fun l => l.role = role).map fun l =>
      ⟨(l.near d).index, g.orderOf (l.far d).node, (l.far d).node⟩
  else []

/-- The nodes that links of one role lead to. -/
def successors (g : Graph κ) (id : NodeId) (role : Role) : List NodeId :=
  distinct (g.neighbours id role .output)

/-- The nodes that links of one role come from. -/
def predecessors (g : Graph κ) (id : NodeId) (role : Role) : List NodeId :=
  distinct (g.neighbours id role .input)

/-- Whether the neighbours of a node cannot be told, because one of them is vacant. -/
def strays (g : Graph κ) (role : Role) (d : Direction) (id : NodeId) : Bool :=
  g.threads.isSome && ((d = .input && g.frayed id) ||
    (g.neighbours id role d).any fun n => !g.contains n.node)

end Graph

end VisualScript
