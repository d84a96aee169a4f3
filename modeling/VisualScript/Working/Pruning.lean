import VisualScript.Graph.Liveness
import VisualScript.Working.Handler

namespace VisualScript

def Registry.policy (r : Registry) (options : CompileOptions) : PrunePolicy NodeKind :=
  { isPure := r.isPure, keeps := r.keeps options, isRoot := r.isRoot }

/-- What pruning removes. A reader that is kept falls back to its default if its source is not. -/
structure PruneReport where
  removed : List NodeId := []
  readAsDefault : List (NodeId × NodeId) := []
  inconsistent : List NodeId := []
deriving DecidableEq

namespace PruneReport

/-- The live nodes that read a data output of a node, with the node. -/
def readers (g : ScriptGraph) (live : LiveSet) (id : NodeId) : List (NodeId × NodeId) :=
  match g.node? id with
  | none => []
  | some n => (n.portsWhere .data .output).flatMap fun p =>
      ((g.farEnds ⟨id, p.1⟩).filter fun far => live.contains far.node).map fun far => (id, far.node)

def ofLive (g : ScriptGraph) (policy : PrunePolicy NodeKind) (live : LiveSet) : PruneReport :=
  let dead := g.nodes.filter fun n => !live.contains n.1
  let removed := dead.map Prod.fst
  { removed
    readAsDefault := removed.flatMap (readers g live)
    inconsistent := (dead.filter fun n => !policy.isPure n.2 && !n.2.hasControl).map Prod.fst }

end PruneReport

def Graph.titleOf (g : ScriptGraph) (id : NodeId) : String := match g.node? id with
  | some n => n.title
  | none => ""

namespace Working

def roots (r : Registry) (env : Env) (w : Working) : List NodeId :=
  w.graph.roots (r.policy env.options) env.options.includePotentialRoots

/-- Warns about what is lost. -/
def warn (w : Working) (report : PruneReport) : Working :=
  let w := report.inconsistent.foldl
    (fun w id => w.report (.nonPureWithoutControl (w.graph.titleOf id)) (some id)) w
  report.readAsDefault.foldl
    (fun w p => w.report (.prunedValueReadAsDefault (w.graph.titleOf p.1) (w.graph.titleOf p.2))
      (some p.2)) w

/-- Removes every node that is not live. -/
def prune (r : Registry) (env : Env) (w : Working) (roots : List NodeId) : PruneReport × Working :=
  let policy := r.policy env.options
  let report := PruneReport.ofLive w.graph policy (w.graph.liveSet policy roots)
  let w := { w with crashed := w.crashed || w.graph.liveStrays policy roots }
  (report, report.removed.foldl removeNode (w.warn report))

end Working

end VisualScript
