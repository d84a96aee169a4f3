import VisualScript.Format.Signature
import VisualScript.Script.Kind

namespace VisualScript

namespace Direction

def toJson (d : Direction) : Json := .str d.name

def ofJson : Decoder Direction := Case.oneOf [("In", .input), ("Out", .output)]

end Direction

namespace Role

def ofJson : Decoder Role := Case.oneOf [("Control", .control), ("Data", .data)]

end Role

namespace Port

def toJson (p : Port) : Json :=
  .object
    [("name", .str p.name), ("direction", p.direction.toJson), ("role", .str p.role.name),
      ("ty", p.type.toJson), ("default_value", .option .str p.default)]

def ofJson : Decoder Port := fun d j => do
  let r ← Record.decode ["name", "direction", "role", "ty", "default_value"] d j
  return ⟨← r.get "name" .string, ← r.get "direction" Direction.ofJson, ← r.get "role" Role.ofJson,
    ← r.get "ty" PinType.ofJson, ← r.optional "default_value" .string⟩

end Port

namespace LocalDecl

def toJson (l : LocalDecl) : Json :=
  .object [("name", .str l.name), ("ty", l.type.toJson), ("default_value", .option .str l.default)]

def ofJson : Decoder LocalDecl := fun d j => do
  let r ← Record.decode ["name", "ty", "default_value"] d j
  return ⟨← r.get "name" .string, ← r.get "ty" PinType.ofJson, ← r.optional "default_value" .string⟩

end LocalDecl

namespace EntrySpec

def toJson (s : EntrySpec) : Json :=
  .object
    [("function", .str s.function), ("locals", .list LocalDecl.toJson s.locals), ("flags", s.flags.toJson),
      ("computed_dispatch", .bool s.computedDispatch)]

def ofJson : Decoder EntrySpec := fun d j => do
  let r ← Record.decode ["function", "locals", "flags", "computed_dispatch"] d j
  return ⟨← r.get "function" .string, ← r.getD "locals" [] (.list LocalDecl.ofJson),
    ← r.getD "flags" {} Flags.ofJson, ← r.getD "computed_dispatch" false .bool⟩

end EntrySpec

namespace EventSpec

def toJson (s : EventSpec) : Json :=
  .object [("name", .str s.name), ("is_override", .bool s.isOverride), ("flags", s.flags.toJson)]

def ofJson : Decoder EventSpec := fun d j => do
  let r ← Record.decode ["name", "is_override", "flags"] d j
  return ⟨← r.get "name" .string, ← r.getD "is_override" false .bool, ← r.getD "flags" {} Flags.ofJson⟩

end EventSpec

namespace TunnelSide

def toJson : TunnelSide → Json
  | .input => .str "Input"
  | .output => .str "Output"

def ofJson : Decoder TunnelSide := Case.oneOf [("Input", .input), ("Output", .output)]

end TunnelSide

namespace BoundarySite

def toJson (s : BoundarySite) : Json := .str s.name

def ofJson : Decoder BoundarySite := Case.oneOf [("Entry", .entry), ("Exit", .exit)]

end BoundarySite

namespace KindTag

def toJson : KindTag → Json
  | .custom name => .tagged "Custom" (.str name)
  | t => .str t.display

def ofJson : Decoder KindTag := fun d j => do
  let c ← Case.decode d j
  if c.tag = "Custom" then return .custom (← c.get .string)
  match table.find? fun p => p.1 = c.tag with
  | some p => c.plain p.2
  | none => .error (.unknown c.tag)

end KindTag

namespace Node

variable {κ : Type}

def formOf (kind : Json) (n : Node κ) : Json :=
  .object
    [("kind", kind), ("title", .str n.title), ("ports", .list Port.toJson n.ports),
      ("pure", .bool n.isPure),
      ("position", .array [.int n.position.1, .int n.position.2]), ("deprecated", .bool n.deprecated),
      ("comment", .option .str n.comment), ("order", .nat n.order)]

def ofJson (kind : Decoder κ) : Decoder (Node κ) := fun d j => do
  let r ← Record.decode ["kind", "title", "ports", "pure", "position", "deprecated", "comment",
    "order"] d j
  let kind := r.get "kind" kind
  let title := r.get "title" .string
  let ports := r.getD "ports" [] (.list Port.ofJson)
  let isPure := r.getD "pure" false .bool
  let position := r.getD "position" (0, 0) (.pair .int32 .int32)
  let deprecated := r.getD "deprecated" false .bool
  let comment := r.optional "comment" .string
  let order := r.getD "order" 0 .word32
  r.settle
    [("kind", discard kind), ("title", discard title), ("ports", discard ports), ("pure", discard isPure),
      ("position", discard position), ("deprecated", discard deprecated),
      ("comment", discard comment), ("order", discard order)]
  return ⟨← kind, ← title, ← ports, ← isPure, ← position, ← deprecated, ← comment, ← order⟩

end Node

namespace Link

def toJson (l : Link) : Json :=
  .array [.nat l.source.node, .nat l.target.node,
    .tagged l.role.name
      (.object [("source_port", .nat l.source.index.toNat), ("target_port", .nat l.target.index.toNat)])]

/-- The positions of the two ports. -/
def portsOfJson : Decoder (UInt16 × UInt16) := fun d j => do
  let r ← Record.decode ["source_port", "target_port"] d j
  return (← r.get "source_port" .word16, ← r.get "target_port" .word16)

def flowOfJson : Decoder (Role × UInt16 × UInt16) := fun d j => do
  let c ← Case.decode d j
  match c.tag with
  | "Control" => return (.control, ← c.get portsOfJson)
  | "Data" => return (.data, ← c.get portsOfJson)
  | tag => .error (.unknown tag)

def ofJson (id : LinkId) : Decoder Link := fun d j => do
  match ← Decoder.tuple 3 d j with
  | (d, [s, t, flow]) =>
      let s ← Decoder.word32 d s
      let t ← Decoder.word32 d t
      let (role, sp, tp) ← flowOfJson d flow
      return ⟨id, ⟨s, sp⟩, ⟨t, tp⟩, role⟩
  | _ => .error (.expected "a link")

end Link

namespace Graph

variable {κ : Type}

/-- The slots without the vacant ones at the end. -/
def usedSlots (g : Graph κ) : List (Option (Node κ)) :=
  (g.slots.reverse.dropWhile Option.isNone).reverse

/-- The vacant ids below the last node. -/
def holes (g : Graph κ) : List NodeId :=
  g.usedSlots.zipIdx.filterMap fun s => if s.1.isNone then some s.2 else none

/-- Every link id up to the last that is in use, with its link. -/
def linkRow (g : Graph κ) : List (Option Link) :=
  (List.range ((g.links.map fun l => l.id + 1).foldl max 0)).map fun id => g.links.find? fun l => l.id = id

def formOf (nodes : List Json) (g : Graph κ) : Json :=
  .object
    [("name", .str g.name),
      ("arena", .object
        [("nodes", .array nodes), ("node_holes", .list .nat g.holes), ("edge_property", .str "directed"),
          ("edges", .list (.option Link.toJson) g.linkRow)]),
      ("next_order", .nat g.nextOrder)]

/-- Puts nodes in the places that are no holes. -/
def interleave {α : Type} : Nat → Nat → List NodeId → List α → List (Option α)
  | 0, _, _, _ => []
  | count + 1, place, hole :: holes, items =>
      if hole = place then none :: interleave count (place + 1) holes items
      else match items with
        | [] => none :: interleave count (place + 1) (hole :: holes) []
        | a :: items => some a :: interleave count (place + 1) (hole :: holes) items
  | count + 1, place, [], a :: items => some a :: interleave count (place + 1) [] items
  | _ + 1, _, [], [] => []

/-- Vacant ids ascend and lie below the number of slots. It is fatal if one comes before `left` nodes
can fill the places in front of it. -/
def checkHoles (total : Nat) : Nat → Nat → List NodeId → Except DecodeError Unit
  | _, _, [] => .ok ()
  | place, left, h :: rest =>
      if h < place ∨ total ≤ h then .error (.outOfRange "vacant id")
      else if left < h - place then .error .fatal
      else checkHoles total (h + 1) (left - (h - place)) rest

/-- The links by ascending id. -/
def rowOfJson : Decoder (List (Option Link))
  | d, .array row => do
      let d ← Decoder.enter d
      row.zipIdx.mapM fun p => Decoder.option (Link.ofJson p.2) d p.1
  | _, _ => .error (.expected "an array")

structure Arena (κ : Type) where
  nodes : List (Node κ)
  holes : List NodeId
  row : List (Option Link)

namespace Arena

def size (a : Arena κ) : Nat := a.nodes.length + a.holes.length

def slots (a : Arena κ) : List (Option (Node κ)) := interleave a.size 0 a.holes a.nodes

def check (a : Arena κ) : Except DecodeError Unit := do
  checkHoles a.size 0 a.nodes.length a.holes
  if a.row.all fun l => l.all fun l => l.source.node < a.size && l.target.node < a.size then return ()
  else .error (.outOfRange "link")

def links (a : Arena κ) : List Link := a.row.filterMap fun l => l

def vacantLinks (a : Arena κ) : List LinkId :=
  (a.row.zipIdx.filterMap fun p => if p.1.isNone then some p.2 else none).reverse

/-- Links at vacant ids need threads. -/
def threads (a : Arena κ) : Option Threads :=
  if a.links.any fun l => l.source.node ∈ a.holes || l.target.node ∈ a.holes then
    some (a.links.foldl (fun t l => t.insert l.id l.source.node l.target.node)
      (.ofVacant (a.slots.map Option.isNone) a.row.length))
  else none

/-- The nodes by ascending id with the vacant ids between them, and the links by ascending id with
null for a vacant one. -/
def ofJson (kind : Decoder κ) : Decoder (Arena κ) := fun d j => do
  let r ← Record.decode ["nodes", "node_holes", "edge_property", "edges"] d j
  let nodes := r.get "nodes" (.list (Node.ofJson kind))
  let holes := r.getD "node_holes" [] (.list .word32)
  let directed := r.get "edge_property" (Case.oneOf [("directed", ())])
  let row := r.get "edges" rowOfJson
  r.settle [("nodes", discard nodes), ("node_holes", discard holes), ("edge_property", directed),
    ("edges", discard row)]
  let () ← directed
  let a : Arena κ := ⟨← nodes, ← holes, ← row⟩
  a.check
  return a

/-- After loading, higher ids become reused first, and links count as added in the order of their
ids. -/
def toGraph (a : Arena κ) (name : String) (nextOrder : Nat) : Graph κ :=
  { name
    slots := a.slots
    vacant := a.holes.reverse
    links := a.links.reverse
    linkBound := a.row.length
    vacantLinks := a.vacantLinks
    nextOrder
    threads := a.threads }

end Arena

def ofJsonWith (kind : Decoder κ) : Decoder (Graph κ) := fun d j => do
  let r ← Record.decode ["name", "arena", "next_order"] d j
  let name := r.get "name" .string
  let arena := r.get "arena" (Arena.ofJson kind)
  let nextOrder := r.getD "next_order" 0 .word32
  r.settle [("name", discard name), ("arena", discard arena), ("next_order", discard nextOrder)]
  return (← arena).toGraph (← name) (← nextOrder)

end Graph

/-- The interchange form of a case that has fields. -/
def Json.case (tag : String) (fields : List (String × Json)) : Json := .tagged tag (.object fields)

mutual

def NodeKind.toJson : NodeKind → Json
  | .functionEntry spec => .tagged "FunctionEntry" spec.toJson
  | .functionResult => .str "FunctionResult"
  | .event spec => .tagged "Event" spec.toJson
  | .callFunction function => .case "CallFunction" [("function", .str function)]
  | .variableGet name => .case "VariableGet" [("variable", .str name)]
  | .variableSet name => .case "VariableSet" [("variable", .str name)]
  | .branch => .str "Branch"
  | .sequence => .str "Sequence"
  | .literal => .str "Literal"
  | .makeArray => .str "MakeArray"
  | .enumLiteral enumName => .case "EnumLiteral" [("enum_name", .str enumName)]
  | .comment => .str "Comment"
  | .macroInstance macroName resolved =>
      .case "MacroInstance" [("macro_name", .str macroName),
        ("resolved_type", .option PinType.toJson resolved)]
  | .composite body => .case "Composite" [("body", ScriptGraph.toJson body)]
  | .tunnel side => .tagged "Tunnel" side.toJson
  | .tunnelBoundary site => .case "TunnelBoundary" [("site", site.toJson)]
  | .persistentFrameAssign => .str "PersistentFrameAssign"
  | .callEventGraph event => .case "CallEventGraph" [("event", .str event)]
  | .custom name properties =>
      .case "Custom"
        [("name", .str name), ("properties", .object (properties.entries.map fun p => (p.1, .str p.2)))]

def ScriptGraph.toJson : Graph NodeKind → Json
  | ⟨name, slots, vacant, links, linkBound, vacantLinks, nextOrder, threads, torn⟩ =>
      Graph.formOf (slotsToJson slots) ⟨name, slots, vacant, links, linkBound, vacantLinks,
        nextOrder, threads, torn⟩

def slotsToJson : List (Option (Node NodeKind)) → List Json
  | [] => []
  | slot :: rest => slotToJson slot ++ slotsToJson rest

def slotToJson : Option (Node NodeKind) → List Json
  | none => []
  | some n => [ScriptNode.toJson n]

def ScriptNode.toJson : Node NodeKind → Json
  | ⟨kind, title, ports, isPure, position, deprecated, comment, order⟩ =>
      Node.formOf (NodeKind.toJson kind) ⟨kind, title, ports, isPure, position, deprecated, comment, order⟩

end

namespace NodeKind

/-- Reads a kind; `fuel` bounds how deep composites nest, which the nesting of the text does too. -/
def ofJsonWithin : Nat → Decoder NodeKind
  | 0 => fun _ _ => .error .tooDeep
  | fuel + 1 => fun d j => do
      let c ← Case.decode d j
      let field (name : String) : Except DecodeError String :=
        c.get fun d j => do (← Record.decode [name] d j).get name .string
      match c.tag with
      | "FunctionEntry" => return .functionEntry (← c.get EntrySpec.ofJson)
      | "FunctionResult" => c.plain .functionResult
      | "Event" => return .event (← c.get EventSpec.ofJson)
      | "CallFunction" => return .callFunction (← field "function")
      | "VariableGet" => return .variableGet (← field "variable")
      | "VariableSet" => return .variableSet (← field "variable")
      | "Branch" => c.plain .branch
      | "Sequence" => c.plain .sequence
      | "Literal" => c.plain .literal
      | "MakeArray" => c.plain .makeArray
      | "EnumLiteral" => return .enumLiteral (← field "enum_name")
      | "Comment" => c.plain .comment
      | "MacroInstance" => c.get fun d j => do
          let r ← Record.decode ["macro_name", "resolved_type"] d j
          return .macroInstance (← r.get "macro_name" .string)
            (← r.optional "resolved_type" PinType.ofJson)
      | "Composite" => c.get fun d j => do
          let r ← Record.decode ["body"] d j
          return .composite (← r.get "body" (Graph.ofJsonWith (ofJsonWithin fuel)))
      | "Tunnel" => return .tunnel (← c.get TunnelSide.ofJson)
      | "TunnelBoundary" => c.get fun d j => do
          let r ← Record.decode ["site"] d j
          return .tunnelBoundary (← r.get "site" BoundarySite.ofJson)
      | "PersistentFrameAssign" => c.plain .persistentFrameAssign
      | "CallEventGraph" => return .callEventGraph (← field "event")
      | "Custom" => c.get fun d j => do
          let r ← Record.decode ["name", "properties"] d j
          return .custom (← r.get "name" .string)
            (← r.getD "properties" ∅ (.orderedMap Decoder.key? .string))
      | tag => .error (.unknown tag)

def ofJson : Decoder NodeKind := ofJsonWithin Decoder.nesting

end NodeKind

def ScriptNode.ofJson : Decoder ScriptNode := Node.ofJson NodeKind.ofJson

def ScriptGraph.ofJson : Decoder ScriptGraph := Graph.ofJsonWith NodeKind.ofJson

end VisualScript
