import VisualScript.Graph.Closure
import VisualScript.Graph.Links

namespace VisualScript

/-- What pruning has to know about nodes. -/
structure PrunePolicy (κ : Type) where
  isPure : Node κ → Bool
  keeps : Node κ → Bool
  isRoot : Node κ → Bool

/-- The nodes that stay, by why they do: they run, they are read, or they are kept anyway. -/
structure LiveSet where
  control : List NodeId := []
  data : List NodeId := []
  forced : List NodeId := []

namespace LiveSet

def contains (l : LiveSet) (id : NodeId) : Bool := id ∈ l.control || id ∈ l.data || id ∈ l.forced

def size (l : LiveSet) : Nat := l.control.length + l.data.length + l.forced.length

end LiveSet

namespace Graph

variable {κ : Type}

/-- The roots; on demand also every impure node that nothing can run. -/
def roots (g : Graph κ) (policy : PrunePolicy κ) (potential : Bool) : List NodeId :=
  g.findNodes fun n => policy.isRoot n || (potential && !policy.isPure n && !n.hasControlInput)

/-- The pure nodes that a node reads from directly. -/
def pureSources (g : Graph κ) (policy : PrunePolicy κ) (id : NodeId) : List NodeId :=
  (g.predecessors id .data).filter fun source => (g.node? source).any policy.isPure

/-- The impure nodes among some. -/
def readersAmong (g : Graph κ) (policy : PrunePolicy κ) (ids : List NodeId) : List NodeId :=
  (g.findNodes fun n => !policy.isPure n).filter fun id => id ∈ ids

/-- The nodes reached from the roots along control links, the kept ones, and what their impure nodes
read. -/
def liveSet (g : Graph κ) (policy : PrunePolicy κ) (roots : List NodeId) : LiveSet :=
  let control := closure g.nodeIds (fun id => g.successors id .control) roots []
  let forced := (g.findNodes policy.keeps).filter fun id => id ∉ control
  let readers := g.readersAmong policy (control ++ forced)
  let rest := g.nodeIds.filter fun id => id ∉ control ∧ id ∉ forced
  { control, forced, data := closure rest (g.pureSources policy) (readers.flatMap
    (g.pureSources policy)) [] }

/-- Whether the live nodes cannot be told, because the search for them comes to a vacant id. -/
def liveStrays (g : Graph κ) (policy : PrunePolicy κ) (roots : List NodeId) : Bool :=
  let live := g.liveSet policy roots
  live.control.any (g.strays .control .output) ||
    (g.readersAmong policy (live.control ++ live.forced) ++ live.data).any (g.strays .data .input)

end Graph

end VisualScript
