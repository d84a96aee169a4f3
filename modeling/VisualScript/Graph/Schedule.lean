import VisualScript.Graph.Links
import VisualScript.Graph.Order

namespace VisualScript

/-- Nodes that wait for each other in a circle. -/
inductive ScheduleError where
  | controlCycle (nodes : List NodeId)
  | dataCycle (nodes : List NodeId)
deriving DecidableEq

namespace ScheduleError

def nodes : ScheduleError → List NodeId
  | controlCycle nodes => nodes
  | dataCycle nodes => nodes

def nodeList (nodes : List NodeId) : String :=
  "[" ++ ", ".intercalate (nodes.map fun id => "NodeId(" ++ toString id ++ ")") ++ "]"

def message : ScheduleError → String
  | controlCycle nodes => "control flow cycle through nodes " ++ nodeList nodes
  | dataCycle nodes => "data dependency cycle through pure nodes " ++ nodeList nodes

end ScheduleError

/-- The impure nodes in the order they run, each with the pure nodes it depends on. -/
structure Schedule where
  linear : List NodeId
  preludes : List (NodeId × List NodeId)
deriving DecidableEq

namespace Schedule

def prelude (s : Schedule) (id : NodeId) : List NodeId := (s.preludes.lookup id).getD []

/-- Every node in the order its statements are emitted. -/
def emissionOrder (s : Schedule) : List NodeId := s.linear.flatMap fun id => s.prelude id ++ [id]

end Schedule

namespace Graph

variable {κ : Type}

/-- The entry first, then by authoring order, then by id. -/
def runsBefore (g : Graph κ) (entry : Option NodeId) (a b : NodeId) : Bool :=
  let rank (id : NodeId) : Nat := if some id = entry then 0 else 1
  rank a < rank b || (rank a = rank b &&
    (g.orderOf a < g.orderOf b || (g.orderOf a = g.orderOf b && a ≤ b)))

/-- A way to find the strongly connected components of some nodes. -/
abbrev Components := (NodeId → List NodeId) → List NodeId → List (List NodeId)

/-- The least order of some nodes in which links of a role lead forward only, or the nodes on cycles. -/
def sorted (g : Graph κ) (entry : Option NodeId) (ids : List NodeId) (role : Role)
    (components : Components := strongComponents) : Except (List NodeId) (List NodeId) :=
  let after id := g.successors id role
  let order := walk after (g.runsBefore entry) ids
  if order.length = ids.length then .ok order
  else
    let left := ids.filter fun id => id ∉ order
    let onward := restrict after left
    .error ((onCycles onward (components onward left)).mergeSort fun a b => a ≤ b)

/-- The pure nodes that a node reads from, through pure nodes only, in the order `order`. -/
def preludeOf (g : Graph κ) (order : List NodeId) (id : NodeId) : List NodeId :=
  let read := closure order (fun id => g.predecessors id .data) (g.predecessors id .data) []
  order.filter fun p => p ∈ read

/-- Schedules the impure nodes along control links. -/
def schedule (g : Graph κ) (entry : Option NodeId) (isPure : Node κ → Bool)
    (components : Components := strongComponents) : Except ScheduleError Schedule :=
  match g.sorted entry (g.findNodes fun n => !isPure n) .control components with
  | .error nodes => .error (.controlCycle nodes)
  | .ok linear => match g.sorted none (g.findNodes isPure) .data components with
    | .error nodes => .error (.dataCycle nodes)
    | .ok order => .ok ⟨linear, linear.map fun id => (id, g.preludeOf order id)⟩

/-- Whether there is no telling of a schedule, because the search for it comes to a vacant id. -/
def scheduleStrays (g : Graph κ) (entry : Option NodeId) (isPure : Node κ → Bool) : Bool :=
  let impure := g.findNodes fun n => !isPure n
  let pures := g.findNodes isPure
  impure.any (g.strays .control .output) || match g.sorted entry impure .control with
    | .error _ => false
    | .ok linear => pures.any (g.strays .data .output) || match g.sorted none pures .data with
      | .error _ => false
      | .ok order => (linear ++ linear.flatMap (g.preludeOf order)).any (g.strays .data .input)

end Graph

end VisualScript
