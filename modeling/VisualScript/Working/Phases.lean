import VisualScript.Graph.Schedule
import VisualScript.Working.Expansion
import VisualScript.Working.Pruning
import VisualScript.Working.Validation

namespace VisualScript

namespace Working

/-- Goes on only as long as there is no error. -/
def next (w : Working) (f : Working → Working) : Working := if w.hasErrors then w else f w

/-- Lets the handlers register terms: those of the signature, or all others. -/
def registerTerms (r : Registry) (env : Env) (early : Bool) (w : Working) : Working :=
  w.graph.nodes.foldl
    (fun w n => if r.isEarly n.2 = early then (r.registerNode env n.1 w).2 else w) w

/-- Expands, prunes and checks the graph and registers the rest of the terms. -/
def precompile (r : Registry) (env : Env) (macros : MacroLibrary) (w : Working) : Working :=
  w.next fun w => (w.expand env macros).work.next fun w =>
    ((w.prune r env (w.roots r env)).2.validateGraph r).next (registerTerms r env false)

def schedule (r : Registry) (w : Working) : Except ScheduleError Schedule :=
  w.graph.schedule w.entry r.isPure

/-- Nodes that are not there do not count as pure. -/
def isPure (r : Registry) (w : Working) (id : NodeId) : Bool := (w.graph.node? id).any r.isPure

end Working

namespace Build

/-- The statements of one node behind its comment and its debug site. -/
def emit (r : Registry) (env : Env) (id : NodeId) : Build (List (NodeId × Statement)) := do
  let w ← get
  let comments := if env.options.emitNodeComments then
    (w.graph.node? id).toList.map fun n => Statement.comment n.title else []
  let sites := if env.options.debugInstrumentation && !w.isPure r id then [Statement.debugSite id] else []
  return (comments ++ sites ++ (← r.emitNode env id)).map fun s => (id, s)

/-- The block of a scheduled node: first what it depends on, then the node itself. -/
def block (r : Registry) (env : Env) (s : Schedule) (id : NodeId) : Build Block := do
  return ⟨id, (← (s.prelude id ++ [id]).mapM (emit r env)).flatten⟩

def blocks (r : Registry) (env : Env) (s : Schedule) : Build (List Block) := s.linear.mapM (block r env s)

/-- Schedules, emits and links a function. There is no body if an error is reported. -/
def body (r : Registry) (env : Env) : Build (Option Body) := do
  let w ← get
  match w.schedule r with
  | .error e =>
      let titles := e.nodes.filterMap fun id => (w.graph.node? id).map fun n => n.title
      report (.scheduleCycle titles) e.nodes.head?
      return none
  | .ok s =>
      let blocks ← blocks r env s
      let w ← get
      return if w.hasErrors then none else some (Body.link blocks fun id => w.provenance.get? id)

end Build

end VisualScript
