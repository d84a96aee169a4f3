import VisualScript.Script.Shape
import VisualScript.Working.Basic

namespace VisualScript

/-- The parameter that tells the event graph where to go. -/
def entryPointParam : String := "EntryPoint"

/-- An event of the event graph. Its data outputs are the parameters of its stub. -/
structure EventInfo where
  node : NodeId
  spec : EventSpec
  params : List Param
  origin : Option Origin

/-- All event pages of a class in one graph. -/
structure EventGraph where
  graph : ScriptGraph
  provenance : Provenance
  entry : NodeId
  events : OrderedMap String EventInfo := ∅

namespace EventGraph

def eventParams (n : ScriptNode) : List Param :=
  (n.portsWhere .data .output).map fun p => { name := p.2.name, type := p.2.type, direction := .input }

/-- The entry jumps to where its parameter says. -/
def entryNode (function : String) : ScriptNode :=
  { kind := .functionEntry
      { function, flags := .union (.union .isPrivate .isFinal) .eventGraph, computedDispatch := true }
    title := function
    ports := [.execOut "then", .dataOut entryPointParam ⟨.int, .single⟩] }

def entryOrigin (function : String) (entry : NodeId) : Origin :=
  { source := ⟨function, entry⟩, synthesized := true }

/-- Starts with the entry alone. -/
def start (function : String) : EventGraph :=
  let (entry, graph) := Graph.addNode { name := function } (entryNode function)
  { graph, entry, provenance := Provenance.record ∅ entry (entryOrigin function entry) }

def mergePage (e : EventGraph) (page : ScriptGraph) : EventGraph :=
  let (map, graph) := e.graph.merge page
  { e with graph, provenance := e.provenance.recordClone map page.name }

/-- Takes in an event node. The first event of a name holds it. -/
def addEvent (found : EventGraph × List (Issue × NodeId)) (n : NodeId × ScriptNode) :
    EventGraph × List (Issue × NodeId) :=
  let (e, issues) := found
  match n.2.kind.eventSpec? with
  | none => found
  | some spec =>
      if e.events.contains spec.name then (e, issues ++ [(.duplicateEvent spec.name, n.1)])
      else
        let info := ⟨n.1, spec, eventParams n.2, e.provenance.get? n.1⟩
        ({ e with events := e.events.insert spec.name info }, issues)

/-- An event that does nothing, for an interface function. -/
def emptyEvent (s : Signature) : ScriptNode :=
  { kind := .event { name := s.name, isOverride := true, flags := .event }
    title := s.name
    ports := .execOut "then" :: s.inputs.map fun p => .dataOut p.name p.type }

/-- Gives an interface function that could be an event and is nowhere implemented an empty event. -/
def addInterfaceEvent (schema : Schema) (e : EventGraph) (s : Signature) : EventGraph :=
  if !s.canBeEvent || e.events.contains s.name || schema.functions.contains s.name then e
  else
    let n := emptyEvent s
    let (id, graph) := e.graph.addNode n
    let provenance := e.provenance.recordAlias id (entryOrigin schema.eventGraphFunction e.entry)
    let spec : EventSpec := { name := s.name, isOverride := true, flags := .event }
    { e with graph, provenance, events := e.events.insert s.name ⟨id, spec, eventParams n,
      provenance.get? id⟩ }

/-- Merges the event pages of a unit. Issues come with the node they are about. -/
def ofUnit (u : CompilationUnit) (schema : Schema) : EventGraph × List (Issue × NodeId) :=
  let merged := u.eventGraphs.foldl mergePage (start schema.eventGraphFunction)
  let (e, issues) := merged.graph.nodes.foldl addEvent (merged, [])
  ((u.interfaces.flatMap InterfaceDecl.functions).foldl (addInterfaceEvent schema) e, issues)

end EventGraph

/-- The function through which an event is called. -/
structure EventStub where
  event : String
  spec : EventSpec
  graph : ScriptGraph
  provenance : Provenance

namespace EventInfo

def stubEntry (info : EventInfo) : ScriptNode :=
  { kind := .functionEntry { function := info.spec.name, flags := .union info.spec.flags .event }
    title := info.spec.name
    ports := .execOut "then" :: info.params.map fun p => .dataOut p.name p.type }

def stubAssign (info : EventInfo) : ScriptNode :=
  ScriptNode.persistentFrameAssign.addPorts
    (info.params.map fun p => .dataIn (slotName info.spec.name p.name) p.type)

/-- The links of a stub whose nodes have the ids 0 to 3. Ports are numbered with 16 bits. -/
def stubLinks (info : EventInfo) : List (PortRef × PortRef) :=
  [(⟨0, 0⟩, ⟨1, 0⟩), (⟨1, 1⟩, ⟨2, 0⟩), (⟨2, 1⟩, ⟨3, 0⟩)] ++
    (List.range (info.params.length % 65536)).map fun i =>
      (⟨0, UInt16.ofNat (1 + i)⟩, ⟨1, UInt16.ofNat (2 + i)⟩)

/-- Whether the parameters outnumber the ports a stub can have. -/
def overflows (info : EventInfo) : Bool := 65534 < info.params.length % 65536

def link (g : ScriptGraph) (l : PortRef × PortRef) : ScriptGraph := match g.connect l.1 l.2 with
  | .ok (_, g) => g
  | .error _ => g

/-- The stub stores its parameters in class slots, calls the event graph and returns. -/
def stub (info : EventInfo) : EventStub :=
  let nodes := [info.stubEntry, info.stubAssign, ScriptNode.callEventGraph info.spec.name,
    ScriptNode.result]
  let graph := nodes.foldl (fun g n => (g.addNode n).2) { name := info.spec.name }
  let provenance := match info.origin with
    | some o => [0, 1, 2, 3].foldl (fun p id => p.recordAlias id o) (∅ : Provenance)
    | none => ∅
  { event := info.spec.name, spec := info.spec, graph := info.stubLinks.foldl link graph, provenance }

end EventInfo

end VisualScript
