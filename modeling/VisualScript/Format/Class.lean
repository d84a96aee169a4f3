import VisualScript.Class.Compiled
import VisualScript.Format.Code
import VisualScript.Format.Options

namespace VisualScript

namespace MemberOrigin

def toJson : MemberOrigin → Json
  | .field => .str "Variable"
  | .component => .str "Component"
  | .persistentFrame => .str "PersistentFrame"

def ofJson : Decoder MemberOrigin :=
  Case.oneOf [("Variable", .field), ("Component", .component), ("PersistentFrame", .persistentFrame)]

end MemberOrigin

namespace MemberSlot

def toJson (m : MemberSlot) : Json :=
  .object
    [("name", .str m.name), ("ty", m.type.toJson), ("origin", m.origin.toJson),
      ("default_value", .option .str m.default)]

def ofJson : Decoder MemberSlot := fun d j => do
  let r ← Record.decode ["name", "ty", "origin", "default_value"] d j
  return ⟨← r.get "name" .string, ← r.get "ty" PinType.ofJson, ← r.get "origin" MemberOrigin.ofJson,
    ← r.get? "default_value" .string⟩

end MemberSlot

namespace ClassLayout

def toJson (l : ClassLayout) : Json :=
  .object
    [("name", .str l.name), ("parent", .option .str l.parent), ("interfaces", .list .str l.interfaces),
      ("members", l.members.toJson id MemberSlot.toJson),
      ("functions", l.functions.toJson id Signature.toJson),
      ("finalized", .bool l.finalized)]

def ofJson : Decoder ClassLayout := fun d j => do
  let r ← Record.decode ["name", "parent", "interfaces", "members", "functions", "finalized"] d j
  return ⟨← r.get "name" .string, ← r.get? "parent" .string, ← r.get "interfaces" (.list .string),
    ← r.get "members" (.orderedMap Decoder.key? MemberSlot.ofJson),
    ← r.get "functions" (.orderedMap Decoder.key? Signature.ofJson),
    ← r.get "finalized" .bool⟩

end ClassLayout

namespace DefaultValue

mutual

def toJson : DefaultValue → Json
  | .bool b => .tagged "Bool" (.bool b)
  | .int n => .tagged "Int" (.int n)
  | .float x => .tagged "Float" (.double x)
  | .str s => .tagged "Str" (.str s)
  | .name s => .tagged "Name" (.str s)
  | .enum n v => .case "Enum" [("enum_name", .str n), ("value", .str v)]
  | .struct s => .tagged "Struct" (.str s)
  | .object c => .tagged "Object" (.option .str c)
  | .array items => .tagged "Array" (.array (listToJson items))
  | .none => .str "None"

def listToJson : List DefaultValue → List Json
  | [] => []
  | v :: rest => toJson v :: listToJson rest

end

/-- Reads a value; `fuel` bounds how deep arrays nest, which the nesting of the text does too. -/
def ofJsonWithin : Nat → Decoder DefaultValue
  | 0 => fun _ _ => .error .tooDeep
  | fuel + 1 => fun d j => do
      let c ← Case.decode d j
      match c.tag with
      | "Bool" => return .bool (← c.get .bool)
      | "Int" => return .int (← c.get .int64)
      | "Float" => return .float (← c.get .double)
      | "Str" => return .str (← c.get .string)
      | "Name" => return .name (← c.get .string)
      | "Enum" => c.get fun d j => do
          let r ← Record.decode ["enum_name", "value"] d j
          return .enum (← r.get "enum_name" .string) (← r.get "value" .string)
      | "Struct" => return .struct (← c.get .string)
      | "Object" => return .object (← c.get (.option .string))
      | "Array" => return .array (← c.get (.list (ofJsonWithin fuel)))
      | "None" => c.plain .none
      | tag => .error (.unknown tag)

def ofJson : Decoder DefaultValue := ofJsonWithin Decoder.nesting

end DefaultValue

namespace DefaultObject

def toJson (o : DefaultObject) : Json :=
  .object [("class", .str o.cls), ("values", o.values.toJson id DefaultValue.toJson)]

def ofJson : Decoder DefaultObject := fun d j => do
  let r ← Record.decode ["class", "values"] d j
  return ⟨← r.get "class" .string, ← r.get "values" (.orderedMap Decoder.key? DefaultValue.ofJson)⟩

end DefaultObject

namespace FunctionRole

def name : FunctionRole → String
  | .function => "Function"
  | .eventGraph => "EventGraph"
  | .eventStub => "EventStub"

def ofJson : Decoder FunctionRole :=
  Case.oneOf [("Function", .function), ("EventGraph", .eventGraph), ("EventStub", .eventStub)]

end FunctionRole

namespace CompileState

def ofJson : Decoder CompileState := Case.oneOf table

end CompileState

namespace CompiledFunction

def toJson (f : CompiledFunction) : Json :=
  let graph := match f.intermediateGraph with
    | some g => [("intermediate_graph", ScriptGraph.toJson g)]
    | none => []
  .object
    ([("name", .str f.name), ("role", .str f.role.name), ("signature", f.signature.toJson),
      ("override_of", .option .str f.overrideOf), ("symbols", f.symbols.toJson), ("body", f.body.toJson),
      ("abandoned", .bool f.abandoned), ("source_graph", .str f.sourceGraph),
      ("signature_hash", .str f.signatureHash), ("fingerprint", .str f.fingerprint)] ++ graph)

end CompiledFunction

namespace CompiledClass

def toJson (c : CompiledClass) : Json :=
  .object
    [("name", .str c.name), ("mode", c.mode.toJson), ("state", .str c.state.name),
      ("layout", c.layout.toJson),
      ("functions", .list CompiledFunction.toJson c.functions),
      ("default_object", .option DefaultObject.toJson c.defaultObject),
      ("diagnostics", c.diagnostics.toJson),
      ("skeleton_hash", .str c.skeletonHash)]

end CompiledClass

end VisualScript
