import VisualScript.Script.Kind

namespace VisualScript.ScriptNode

def entry (function : String) : ScriptNode :=
  { kind := .functionEntry { function }, title := function, ports := [.execOut "then"] }

def result : ScriptNode := { kind := .functionResult, title := "Return", ports := [.execIn "exec"] }

def event (name : String) : ScriptNode :=
  { kind := .event { name }, title := name, ports := [.execOut "then"] }

def call (function : String) : ScriptNode :=
  { kind := .callFunction function, title := function, ports := [.execIn "exec", .execOut "then"] }

def pureCall (function : String) : ScriptNode :=
  { kind := .callFunction function, title := function, isPure := true }

def branch : ScriptNode :=
  { kind := .branch, title := "Branch",
    ports := [.execIn "exec", .dataIn "condition" ⟨.bool, .single⟩, .execOut "true", .execOut "false"] }

def sequence (outputs : Nat) : ScriptNode :=
  { kind := .sequence, title := "Sequence",
    ports := .execIn "exec" :: (List.range outputs).map fun i => .execOut ("then_" ++ toString i) }

def variableGet (name : String) (type : PinType) : ScriptNode :=
  { kind := .variableGet name, title := "Get " ++ name, ports := [.dataOut "value" type], isPure := true }

def variableSet (name : String) (type : PinType) : ScriptNode :=
  { kind := .variableSet name, title := "Set " ++ name,
    ports := [.execIn "exec", .execOut "then", .dataIn "value" type, .dataOut "output" type] }

def literal (type : PinType) (value : String) : ScriptNode :=
  { kind := .literal, title := value, ports := [.dataOut "value" type (some value)], isPure := true }

def makeArray (element : BaseType) (elements : Nat) : ScriptNode :=
  { kind := .makeArray, title := "Make Array", isPure := true,
    ports := (List.range elements).map (fun i => .dataIn ("[" ++ toString i ++ "]") ⟨element, .single⟩) ++
      [.dataOut "array" ⟨element, .array⟩] }

def enumLiteral (enumName value : String) : ScriptNode :=
  { kind := .enumLiteral enumName, title := "Literal " ++ enumName, isPure := true,
    ports := [.dataIn "value" ⟨.name, .single⟩ (some value), .dataOut "enum" ⟨.enum enumName, .single⟩] }

def comment (text : String) : ScriptNode :=
  { kind := .comment, title := text, isPure := true, comment := some text }

def macroInstance (macroName : String) : ScriptNode :=
  { kind := .macroInstance macroName none, title := macroName }

def composite (body : ScriptGraph) : ScriptNode := { kind := .composite body, title := body.name }

def tunnel (side : TunnelSide) : ScriptNode :=
  { kind := .tunnel side, title := match side with
      | .input => "Inputs"
      | .output => "Outputs" }

def tunnelBoundary (site : BoundarySite) : ScriptNode :=
  { kind := .tunnelBoundary site, title := site.name ++ " boundary", ports := [.execIn "exec",
    .execOut "then"] }

def persistentFrameAssign : ScriptNode :=
  { kind := .persistentFrameAssign, title := "Assign persistent frame", ports := [.execIn "exec",
    .execOut "then"] }

def callEventGraph (event : String) : ScriptNode :=
  { kind := .callEventGraph event, title := "Call event graph (" ++ event ++ ")",
    ports := [.execIn "exec", .execOut "then"] }

end VisualScript.ScriptNode
