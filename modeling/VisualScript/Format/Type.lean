import VisualScript.Json.Decoder
import VisualScript.PinType

namespace VisualScript

namespace BaseType

def toJson : BaseType → Json
  | .exec => .str "Exec"
  | .wildcard => .str "Wildcard"
  | .bool => .str "Bool"
  | .byte => .str "Byte"
  | .int => .str "Int"
  | .int64 => .str "Int64"
  | .float => .str "Float"
  | .name => .str "Name"
  | .string => .str "String"
  | .text => .str "Text"
  | .enum n => .tagged "Enum" (.str n)
  | .struct n => .tagged "Struct" (.str n)
  | .object n => .tagged "Object" (.str n)
  | .interface n => .tagged "Interface" (.str n)

def ofJson : Decoder BaseType := fun d j => do
  let c ← Case.decode d j
  match c.tag with
  | "Exec" => c.plain .exec
  | "Wildcard" => c.plain .wildcard
  | "Bool" => c.plain .bool
  | "Byte" => c.plain .byte
  | "Int" => c.plain .int
  | "Int64" => c.plain .int64
  | "Float" => c.plain .float
  | "Name" => c.plain .name
  | "String" => c.plain .string
  | "Text" => c.plain .text
  | "Enum" => return .enum (← c.get .string)
  | "Struct" => return .struct (← c.get .string)
  | "Object" => return .object (← c.get .string)
  | "Interface" => return .interface (← c.get .string)
  | tag => .error (.unknown tag)

end BaseType

namespace Container

def toJson : Container → Json
  | .single => .str "Single"
  | .array => .str "Array"

def ofJson : Decoder Container := Case.oneOf [("Single", .single), ("Array", .array)]

end Container

namespace PinType

def toJson (t : PinType) : Json :=
  .object [("base", t.base.toJson), ("container", t.container.toJson)]

def ofJson : Decoder PinType := fun d j => do
  let r ← Record.decode ["base", "container"] d j
  return ⟨← r.get "base" BaseType.ofJson, ← r.getD "container" .single Container.ofJson⟩

end PinType

end VisualScript
