import VisualScript.Format.Graph
import VisualScript.Report.Diagnostic

namespace VisualScript

namespace SourceRef

def toJson (s : SourceRef) : Json := .object [("graph", .str s.graph), ("node", .nat s.node)]

def ofJson : Decoder SourceRef := fun d j => do
  let r ← Record.decode ["graph", "node"] d j
  return ⟨← r.get "graph" .string, ← r.get "node" .word32⟩

end SourceRef

namespace Origin

def toJson (o : Origin) : Json :=
  .object
    [("source", o.source.toJson), ("call_sites", .list SourceRef.toJson o.callSites),
      ("synthesized", .bool o.synthesized)]

def ofJson : Decoder Origin := fun d j => do
  let r ← Record.decode ["source", "call_sites", "synthesized"] d j
  return ⟨← r.get "source" SourceRef.ofJson, ← r.get "call_sites" (.list SourceRef.ofJson),
    ← r.get "synthesized" .bool⟩

end Origin

namespace Severity

def name : Severity → String
  | .warning => "Warning"
  | .error => "Error"

end Severity

namespace IssueKind

def name : IssueKind → String
  | .structural => "Structural"
  | .type => "Type"
  | .signatureMismatch => "SignatureMismatch"
  | .warning => "Warning"

end IssueKind

namespace Issue

def toJson : Issue → Json
  | .missingEntry graph => .case "MissingEntry" [("graph", .str graph)]
  | .multipleEntries graph count => .case "MultipleEntries" [("graph", .str graph), ("count", .nat count)]
  | .duplicateFunction name => .case "DuplicateFunction" [("name", .str name)]
  | .duplicateEvent name => .case "DuplicateEvent" [("name", .str name)]
  | .controlFanOut node port count =>
      .case "ControlFanOut" [("node", .str node), ("port", .str port), ("count", .nat count)]
  | .dataFanIn node port count =>
      .case "DataFanIn" [("node", .str node), ("port", .str port), ("count", .nat count)]
  | .scheduleCycle nodes => .case "ScheduleCycle" [("nodes", .list .str nodes)]
  | .missingMacro node macroName =>
      .case "MissingMacro" [("node", .str node), ("macro_name", .str macroName)]
  | .recursiveExpansion macroName detail =>
      .case "RecursiveExpansion" [("macro_name", .str macroName), ("detail", .str detail)]
  | .missingTunnelPort node macroName port =>
      .case "MissingTunnelPort" [("node", .str node), ("macro_name", .str macroName), ("port", .str port)]
  | .tunnelCollapse node reason => .case "TunnelCollapse" [("node", .str node), ("reason", .str reason)]
  | .classSlotClash name => .case "ClassSlotClash" [("name", .str name)]
  | .unknownNodeKind node kind => .case "UnknownNodeKind" [("node", .str node), ("kind", .str kind)]
  | .unknownVariable node name => .case "UnknownVariable" [("node", .str node), ("variable", .str name)]
  | .invalidLink reason => .case "InvalidLink" [("reason", .str reason)]
  | .typeMismatch fromNode fromPort toNode toPort expected actual =>
      .case "TypeMismatch"
        [("from_node", .str fromNode), ("from_port", .str fromPort), ("to_node", .str toNode),
          ("to_port", .str toPort), ("expected", .str expected), ("actual", .str actual)]
  | .interfaceToObject node port interface cls =>
      .case "InterfaceToObject"
        [("node", .str node), ("port", .str port), ("interface", .str interface), ("class", .str cls)]
  | .unresolvedWildcard node port => .case "UnresolvedWildcard" [("node", .str node), ("port", .str port)]
  | .parameterOrder function param =>
      .case "ParameterOrder" [("function", .str function), ("param", .str param)]
  | .unexpectedParameter function param =>
      .case "UnexpectedParameter" [("function", .str function), ("param", .str param)]
  | .parameterType function param expected actual =>
      .case "ParameterType"
        [("function", .str function), ("param", .str param), ("expected", .str expected),
          ("actual", .str actual)]
  | .netFlagMismatch function parent =>
      .case "NetFlagMismatch" [("function", .str function), ("parent", .str parent)]
  | .missingOverrideTarget function => .case "MissingOverrideTarget" [("function", .str function)]
  | .prunedValueReadAsDefault node consumer =>
      .case "PrunedValueReadAsDefault" [("node", .str node), ("consumer", .str consumer)]
  | .nonPureWithoutControl node => .case "NonPureWithoutControl" [("node", .str node)]
  | .nameAutoRenamed old new => .case "NameAutoRenamed" [("from", .str old), ("to", .str new)]
  | .deprecatedNode node => .case "DeprecatedNode" [("node", .str node)]
  | .unparsableDefault member value type =>
      .case "UnparsableDefault" [("member", .str member), ("value", .str value), ("ty", .str type)]
  | .accessSpecifierMismatch function parent =>
      .case "AccessSpecifierMismatch" [("function", .str function), ("parent", .str parent)]

/-- A case with one text field. -/
def text1 (c : Case) (a : String) (make : String → Issue) : Except DecodeError Issue :=
  c.get fun d j => do
    let r ← Record.decode [a] d j
    return make (← r.get a .string)

def text2 (c : Case) (a b : String) (make : String → String → Issue) : Except DecodeError Issue :=
  c.get fun d j => do
    let r ← Record.decode [a, b] d j
    return make (← r.get a .string) (← r.get b .string)

def text3 (c : Case) (a b e : String) (make : String → String → String → Issue) :
    Except DecodeError Issue :=
  c.get fun d j => do
    let r ← Record.decode [a, b, e] d j
    return make (← r.get a .string) (← r.get b .string) (← r.get e .string)

def text4 (c : Case) (a b e f : String) (make : String → String → String → String → Issue) :
    Except DecodeError Issue :=
  c.get fun d j => do
    let r ← Record.decode [a, b, e, f] d j
    return make (← r.get a .string) (← r.get b .string) (← r.get e .string) (← r.get f .string)

/-- A case of a port with too many links. -/
def counted (c : Case) (make : String → String → Nat → Issue) : Except DecodeError Issue :=
  c.get fun d j => do
    let r ← Record.decode ["node", "port", "count"] d j
    return make (← r.get "node" .string) (← r.get "port" .string) (← r.get "count" .word64)

def ofJson : Decoder Issue := fun d j => do
  let c ← Case.decode d j
  match c.tag with
  | "MissingEntry" => text1 c "graph" .missingEntry
  | "MultipleEntries" => c.get fun d j => do
      let r ← Record.decode ["graph", "count"] d j
      return .multipleEntries (← r.get "graph" .string) (← r.get "count" .word64)
  | "DuplicateFunction" => text1 c "name" .duplicateFunction
  | "DuplicateEvent" => text1 c "name" .duplicateEvent
  | "ControlFanOut" => counted c .controlFanOut
  | "DataFanIn" => counted c .dataFanIn
  | "ScheduleCycle" => c.get fun d j => do
      let r ← Record.decode ["nodes"] d j
      return .scheduleCycle (← r.get "nodes" (.list .string))
  | "MissingMacro" => text2 c "node" "macro_name" .missingMacro
  | "RecursiveExpansion" => text2 c "macro_name" "detail" .recursiveExpansion
  | "MissingTunnelPort" => text3 c "node" "macro_name" "port" .missingTunnelPort
  | "TunnelCollapse" => text2 c "node" "reason" .tunnelCollapse
  | "ClassSlotClash" => text1 c "name" .classSlotClash
  | "UnknownNodeKind" => text2 c "node" "kind" .unknownNodeKind
  | "UnknownVariable" => text2 c "node" "variable" .unknownVariable
  | "InvalidLink" => text1 c "reason" .invalidLink
  | "TypeMismatch" => c.get fun d j => do
      let r ← Record.decode ["from_node", "from_port", "to_node", "to_port", "expected", "actual"] d j
      return .typeMismatch (← r.get "from_node" .string) (← r.get "from_port" .string)
        (← r.get "to_node" .string)
        (← r.get "to_port" .string) (← r.get "expected" .string) (← r.get "actual" .string)
  | "InterfaceToObject" => text4 c "node" "port" "interface" "class" .interfaceToObject
  | "UnresolvedWildcard" => text2 c "node" "port" .unresolvedWildcard
  | "ParameterOrder" => text2 c "function" "param" .parameterOrder
  | "UnexpectedParameter" => text2 c "function" "param" .unexpectedParameter
  | "ParameterType" => text4 c "function" "param" "expected" "actual" .parameterType
  | "NetFlagMismatch" => text2 c "function" "parent" .netFlagMismatch
  | "MissingOverrideTarget" => text1 c "function" .missingOverrideTarget
  | "PrunedValueReadAsDefault" => text2 c "node" "consumer" .prunedValueReadAsDefault
  | "NonPureWithoutControl" => text1 c "node" .nonPureWithoutControl
  | "NameAutoRenamed" => text2 c "from" "to" .nameAutoRenamed
  | "DeprecatedNode" => text1 c "node" .deprecatedNode
  | "UnparsableDefault" => text3 c "member" "value" "ty" .unparsableDefault
  | "AccessSpecifierMismatch" => text2 c "function" "parent" .accessSpecifierMismatch
  | tag => .error (.unknown tag)

end Issue

namespace SourceLocation

def toJson (l : SourceLocation) : Json :=
  .object
    [("function", .str l.function), ("source", .option SourceRef.toJson l.source),
      ("port", .option .str l.port),
      ("call_site", .option SourceRef.toJson l.callSite)]

def ofJson : Decoder SourceLocation := fun d j => do
  let r ← Record.decode ["function", "source", "port", "call_site"] d j
  return ⟨← r.get "function" .string, ← r.get? "source" SourceRef.ofJson, ← r.get? "port" .string,
    ← r.get? "call_site" SourceRef.ofJson⟩

end SourceLocation

namespace Diagnostic

def toJson (d : Diagnostic) : Json :=
  .object [("issue", d.issue.toJson), ("location", d.location.toJson)]

def ofJson : Decoder Diagnostic := fun d j => do
  let r ← Record.decode ["issue", "location"] d j
  return ⟨← r.get "issue" Issue.ofJson, ← r.get "location" SourceLocation.ofJson⟩

end Diagnostic

namespace MessageLog

def toJson (log : MessageLog) : Json := .object [("diagnostics", .list Diagnostic.toJson log)]

def ofJson : Decoder MessageLog := fun d j => do
  let r ← Record.decode ["diagnostics"] d j
  r.get "diagnostics" (.list Diagnostic.ofJson)

end MessageLog

end VisualScript
