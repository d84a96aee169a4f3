import VisualScript.Format.Type
import VisualScript.Signature.Basic

namespace VisualScript

namespace Flags

def toJson (f : Flags) : Json := .str f.text

def ofJson : Decoder Flags := fun d j => do
  match Flags.ofText? (← Decoder.string d j) with
  | some f => .ok f
  | none => .error (.expected "flags")

end Flags

namespace ParamDirection

def toJson : ParamDirection → Json
  | .input => .str "Input"
  | .output => .str "Output"

def ofJson : Decoder ParamDirection := Case.oneOf [("Input", .input), ("Output", .output)]

end ParamDirection

namespace Param

def toJson (p : Param) : Json :=
  .object [("name", .str p.name), ("ty", p.type.toJson), ("direction", p.direction.toJson)]

def ofJson : Decoder Param := fun d j => do
  let r ← Record.decode ["name", "ty", "direction"] d j
  return ⟨← r.get "name" .string, ← r.get "ty" PinType.ofJson, ← r.get "direction" ParamDirection.ofJson⟩

end Param

namespace Signature

def toJson (s : Signature) : Json :=
  .object [("name", .str s.name), ("params", .list Param.toJson s.params), ("flags", s.flags.toJson)]

def ofJson : Decoder Signature := fun d j => do
  let r ← Record.decode ["name", "params", "flags"] d j
  return ⟨← r.get "name" .string, ← r.get "params" (.list Param.ofJson), ← r.getD "flags" {} Flags.ofJson⟩

end Signature

end VisualScript
