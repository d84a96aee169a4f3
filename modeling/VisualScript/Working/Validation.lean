import VisualScript.Working.Handler

namespace VisualScript

namespace Working

/-- A function has one entry; only the event graph may hold events. -/
def validateEntries (w : Working) : Working :=
  let entries := w.graph.findNodes fun n => n.kind.entrySpec?.isSome
  let w := match entries with
    | [] => w.report (.missingEntry w.sourceGraph) none
    | [_] => w
    | _ :: second :: _ => w.report (.multipleEntries w.sourceGraph entries.length) (some second)
  if w.role = .eventGraph then w
  else match w.graph.findNodes fun n => n.kind.eventSpec?.isSome with
    | [] => w
    | first :: rest => w.report (.multipleEntries w.sourceGraph (entries.length + rest.length + 1))
        (some first)

/-- Why a value may not flow from one port into another. -/
def flowIssue? (source : ScriptNode) (sourcePort : Port) (n : ScriptNode) (p : Port) : Option Issue :=
  if sourcePort.type.needsCast p.type then
    some (.interfaceToObject n.title p.name sourcePort.type.base.shortName p.type.base.shortName)
  else if !sourcePort.type.flowsInto p.type then
    some (.typeMismatch source.title sourcePort.name n.title p.name p.type.display sourcePort.type.display)
  else none

/-- The type issue of a data input: a wildcard is left, or its first link does not fit. -/
def inputIssue? (g : ScriptGraph) (n : ScriptNode) (p : Port) (links : List PortRef) : Option Issue :=
  if p.type.isWildcard then some (.unresolvedWildcard n.title p.name)
  else match links with
    | [] => none
    | far :: _ => match g.node? far.node, g.port? far with
      | some source, some sourcePort => flowIssue? source sourcePort n p
      | _, _ => none

def portIssues (g : ScriptGraph) (id : NodeId) (n : ScriptNode) (p : UInt16 × Port) : List Issue :=
  let links := g.farEnds ⟨id, p.1⟩
  match p.2.role, p.2.direction with
  | .control, .output => if 1 < links.length then [.controlFanOut n.title p.2.name links.length] else []
  | .control, .input => []
  | .data, .input =>
      (if 1 < links.length then [.dataFanIn n.title p.2.name links.length] else []) ++
        (inputIssue? g n p.2 links).toList
  | .data, .output =>
      if p.2.type.isWildcard && !links.isEmpty then [.unresolvedWildcard n.title p.2.name] else []

def nodeIssues (r : Registry) (n : ScriptNode) : List Issue :=
  (if (r.handler? n).isNone then [.unknownNodeKind n.title n.kind.tag.display] else []) ++
    (if n.deprecated then [.deprecatedNode n.title] else [])

def validateNode (r : Registry) (w : Working) (n : NodeId × ScriptNode) : Working :=
  let w := (nodeIssues r n.2).foldl (fun w issue => w.report issue (some n.1)) w
  n.2.indexed.foldl (fun w p =>
    (portIssues w.graph n.1 n.2 p).foldl (fun w issue => w.report issue (some n.1) (some p.1))
      (w.inspect ⟨n.1, p.1⟩)) w

/-- Reports every problem with the nodes and links. -/
def validateGraph (r : Registry) (w : Working) : Working := w.graph.nodes.foldl (validateNode r) w

end Working

end VisualScript
