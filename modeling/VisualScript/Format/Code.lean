import VisualScript.Class.Symbols
import VisualScript.Code.Body
import VisualScript.Format.Report
import VisualScript.Format.Unit

namespace VisualScript

namespace TermKind

def ofJson : Decoder TermKind :=
  Case.oneOf
    [("Parameter", .parameter), ("Output", .output), ("Local", .local), ("Literal", .literal),
      ("Member", .member),
      ("PersistentFrame", .persistentFrame)]

end TermKind

namespace Term

def toJson (t : Term) : Json :=
  .object
    [("id", .nat t.id), ("name", .str t.name), ("declared_name", .str t.declared), ("ty", t.type.toJson),
      ("kind", .str t.kind.name), ("literal", .option .str t.literal)]

end Term

namespace JumpTarget

def toJson : JumpTarget → Json
  | .node id => .tagged "Node" (.nat id)
  | .offset n => .tagged "Offset" (.nat n)
  | .endOfThread => .str "EndOfThread"

def ofJson : Decoder JumpTarget := fun d j => do
  let c ← Case.decode d j
  match c.tag with
  | "Node" => return .node (← c.get .word32)
  | "Offset" => return .offset (← c.get .word64)
  | "EndOfThread" => c.plain .endOfThread
  | tag => .error (.unknown tag)

end JumpTarget

namespace Statement

def toJson : Statement → Json
  | .comment text => .tagged "Comment" (.str text)
  | .debugSite node => .tagged "DebugSite" (.nat node)
  | .boundary site callSite =>
      .case "InstrumentationBoundary" [("site", site.toJson),
        ("call_site", .option SourceRef.toJson callSite)]
  | .callFunction function args results =>
      .case "CallFunction" [("function", .str function), ("args", .list .nat args),
        ("results", .list .nat results)]
  | .assign dest src => .case "Assign" [("dest", .nat dest), ("src", .nat src)]
  | .createArray dest elements =>
      .case "CreateArray" [("dest", .nat dest), ("elements", .list .nat elements)]
  | .goto target => .tagged "Goto" target.toJson
  | .gotoIfNot condition target =>
      .case "GotoIfNot" [("condition", .nat condition), ("target", target.toJson)]
  | .pushFlow target => .tagged "PushFlow" target.toJson
  | .endOfThread => .str "EndOfThread"
  | .computedGoto index => .case "ComputedGoto" [("index", .nat index)]
  | .callEventGraph function event entryOffset =>
      .case "CallEventGraph"
        [("function", .str function), ("event", .str event), ("entry_offset", .option .nat entryOffset)]
  | .ret => .str "Return"
  | .custom name args => .case "Custom" [("name", .str name), ("args", .list .nat args)]

def ofJson : Decoder Statement := fun d j => do
  let c ← Case.decode d j
  match c.tag with
  | "Comment" => return .comment (← c.get .string)
  | "DebugSite" => return .debugSite (← c.get .word32)
  | "InstrumentationBoundary" => c.get fun d j => do
      let r ← Record.decode ["site", "call_site"] d j
      return .boundary (← r.get "site" BoundarySite.ofJson) (← r.get? "call_site" SourceRef.ofJson)
  | "CallFunction" => c.get fun d j => do
      let r ← Record.decode ["function", "args", "results"] d j
      return .callFunction (← r.get "function" .string) (← r.get "args" (.list .word32))
        (← r.get "results" (.list .word32))
  | "Assign" => c.get fun d j => do
      let r ← Record.decode ["dest", "src"] d j
      return .assign (← r.get "dest" .word32) (← r.get "src" .word32)
  | "CreateArray" => c.get fun d j => do
      let r ← Record.decode ["dest", "elements"] d j
      return .createArray (← r.get "dest" .word32) (← r.get "elements" (.list .word32))
  | "Goto" => return .goto (← c.get JumpTarget.ofJson)
  | "GotoIfNot" => c.get fun d j => do
      let r ← Record.decode ["condition", "target"] d j
      return .gotoIfNot (← r.get "condition" .word32) (← r.get "target" JumpTarget.ofJson)
  | "PushFlow" => return .pushFlow (← c.get JumpTarget.ofJson)
  | "EndOfThread" => c.plain .endOfThread
  | "ComputedGoto" => c.get fun d j => do
      let r ← Record.decode ["index"] d j
      return .computedGoto (← r.get "index" .word32)
  | "CallEventGraph" => c.get fun d j => do
      let r ← Record.decode ["function", "event", "entry_offset"] d j
      return .callEventGraph (← r.get "function" .string) (← r.get "event" .string)
        (← r.get? "entry_offset" .word64)
  | "Return" => c.plain .ret
  | "Custom" => c.get fun d j => do
      let r ← Record.decode ["name", "args"] d j
      return .custom (← r.get "name" .string) (← r.get "args" (.list .word32))
  | tag => .error (.unknown tag)

end Statement

namespace Body

def toJson (b : Body) : Json :=
  .object
    [("statements", .list Statement.toJson b.statements),
      ("block_starts", b.blockStarts.toJson toString .nat),
      ("statement_nodes", .list .nat b.statementNodes),
      ("origins", .list (.option Origin.toJson) b.origins)]

def ofJson : Decoder Body := fun d j => do
  let r ← Record.decode ["statements", "block_starts", "statement_nodes", "origins"] d j
  return ⟨← r.get "statements" (.list Statement.ofJson),
    ← r.get "block_starts" (.orderedMap Decoder.key32? .word64), ← r.get "statement_nodes" (.list .word32),
    ← r.get "origins" (.list (.option Origin.ofJson))⟩

end Body

namespace Storage

def toJson : Storage → Json
  | .parameter slot => .tagged "Parameter" (.nat slot)
  | .local slot => .tagged "Local" (.nat slot)
  | .member name => .tagged "Member" (.str name)
  | .literal text => .tagged "Literal" (.str text)

def ofJson : Decoder Storage := fun d j => do
  let c ← Case.decode d j
  match c.tag with
  | "Parameter" => return .parameter (← c.get .word64)
  | "Local" => return .local (← c.get .word64)
  | "Member" => return .member (← c.get .string)
  | "Literal" => return .literal (← c.get .string)
  | tag => .error (.unknown tag)

end Storage

namespace Symbol

def toJson (s : Symbol) : Json :=
  .object [("term", .nat s.term), ("name", .str s.name), ("ty", s.type.toJson),
    ("storage", s.storage.toJson)]

def ofJson : Decoder Symbol := fun d j => do
  let r ← Record.decode ["term", "name", "ty", "storage"] d j
  return ⟨← r.get "term" .word32, ← r.get "name" .string, ← r.get "ty" PinType.ofJson,
    ← r.get "storage" Storage.ofJson⟩

end Symbol

namespace SymbolTable

def toJson (s : SymbolTable) : Json :=
  .object
    [("symbols", s.symbols.toJson toString Symbol.toJson), ("parameters", .list .nat s.parameters),
      ("locals", .list .nat s.locals), ("defaults", s.defaults.toJson id .str)]

def ofJson : Decoder SymbolTable := fun d j => do
  let r ← Record.decode ["symbols", "parameters", "locals", "defaults"] d j
  return ⟨← r.get "symbols" (.orderedMap Decoder.key32? Symbol.ofJson),
    ← r.get "parameters" (.list .word32),
    ← r.get "locals" (.list .word32), ← r.get "defaults" (.orderedMap Decoder.key? .string)⟩

end SymbolTable

end VisualScript
