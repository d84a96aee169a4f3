import VisualScript.Graph.Merge
import VisualScript.OrderedMap
import VisualScript.Signature.Basic

namespace VisualScript

/-- A local variable declared at the entry of a function. -/
structure LocalDecl where
  name : String
  type : PinType
  default : Option String := none
deriving DecidableEq

structure EntrySpec where
  function : String
  locals : List LocalDecl := []
  flags : Flags := {}
  computedDispatch : Bool := false
deriving DecidableEq

structure EventSpec where
  name : String
  isOverride : Bool := false
  flags : Flags := {}
deriving DecidableEq

/-- The outputs of the input side are the inputs of the region it stands in, and conversely. -/
inductive TunnelSide where
  | input
  | output
deriving DecidableEq

inductive BoundarySite where
  | entry
  | exit
deriving DecidableEq

def BoundarySite.name : BoundarySite → String
  | .entry => "Entry"
  | .exit => "Exit"

/-- What a node does. A composite carries the graph it stands for. -/
inductive NodeKind where
  | functionEntry (spec : EntrySpec)
  | functionResult
  | event (spec : EventSpec)
  | callFunction (function : String)
  | variableGet (name : String)
  | variableSet (name : String)
  | branch
  | sequence
  | literal
  | makeArray
  | enumLiteral (enumName : String)
  | comment
  | macroInstance (macroName : String) (resolved : Option PinType)
  | composite (body : Graph NodeKind)
  | tunnel (side : TunnelSide)
  | tunnelBoundary (site : BoundarySite)
  | persistentFrameAssign
  | callEventGraph (event : String)
  | custom (name : String) (properties : OrderedMap String String)

abbrev ScriptNode := Node NodeKind

abbrev ScriptGraph := Graph NodeKind

/-- A kind without what it carries. Handlers are found by it. -/
inductive KindTag where
  | functionEntry
  | functionResult
  | event
  | callFunction
  | variableGet
  | variableSet
  | branch
  | sequence
  | literal
  | makeArray
  | enumLiteral
  | comment
  | macroInstance
  | composite
  | tunnel
  | tunnelBoundary
  | persistentFrameAssign
  | callEventGraph
  | custom (name : String)
deriving DecidableEq

namespace KindTag

/-- The tags without a name of their own, with the text that stands for them. -/
def table : List (String × KindTag) :=
  [("FunctionEntry", .functionEntry), ("FunctionResult", .functionResult), ("Event", .event),
    ("CallFunction", .callFunction), ("VariableGet", .variableGet), ("VariableSet", .variableSet),
    ("Branch", .branch), ("Sequence", .sequence), ("Literal", .literal), ("MakeArray", .makeArray),
    ("EnumLiteral", .enumLiteral), ("Comment", .comment), ("MacroInstance", .macroInstance),
    ("Composite", .composite), ("Tunnel", .tunnel), ("TunnelBoundary", .tunnelBoundary),
    ("PersistentFrameAssign", .persistentFrameAssign), ("CallEventGraph", .callEventGraph)]

def display (t : KindTag) : String :=
  match t with
  | .custom name => "Custom(" ++ name ++ ")"
  | t => match table.find? fun p => p.2 = t with
    | some p => p.1
    | none => ""

end KindTag

namespace NodeKind

def tag : NodeKind → KindTag
  | .functionEntry _ => .functionEntry
  | .functionResult => .functionResult
  | .event _ => .event
  | .callFunction _ => .callFunction
  | .variableGet _ => .variableGet
  | .variableSet _ => .variableSet
  | .branch => .branch
  | .sequence => .sequence
  | .literal => .literal
  | .makeArray => .makeArray
  | .enumLiteral _ => .enumLiteral
  | .comment => .comment
  | .macroInstance _ _ => .macroInstance
  | .composite _ => .composite
  | .tunnel _ => .tunnel
  | .tunnelBoundary _ => .tunnelBoundary
  | .persistentFrameAssign => .persistentFrameAssign
  | .callEventGraph _ => .callEventGraph
  | .custom name _ => .custom name

/-- Kinds that expansion replaces by a body. -/
def isInstance : NodeKind → Bool
  | .macroInstance _ _ => true
  | .composite _ => true
  | _ => false

def isTunnel : NodeKind → Bool
  | .tunnel _ => true
  | _ => false

def isTunnelOf (side : TunnelSide) : NodeKind → Bool
  | .tunnel s => s = side
  | _ => false

def entrySpec? : NodeKind → Option EntrySpec
  | .functionEntry spec => some spec
  | _ => none

def eventSpec? : NodeKind → Option EventSpec
  | .event spec => some spec
  | _ => none

/-- Where execution can come in: function entries and events. -/
def isEntry (k : NodeKind) : Bool := k.entrySpec?.isSome || k.eventSpec?.isSome

end NodeKind

namespace Graph

/-- Function entries and events, in authoring order. -/
def entries (g : ScriptGraph) : List NodeId := g.findNodes fun n => n.kind.isEntry

/-- The function a graph declares: that of its first entry, or else its own name. -/
def functionName (g : ScriptGraph) : String :=
  match g.nodes.findSome? fun n => n.2.kind.entrySpec? with
  | some spec => spec.function
  | none => g.name

/-- The events of a page, in authoring order. -/
def events (g : ScriptGraph) : List (NodeId × EventSpec) :=
  g.nodes.filterMap fun n => n.2.kind.eventSpec?.map fun spec => (n.1, spec)

end Graph

end VisualScript
