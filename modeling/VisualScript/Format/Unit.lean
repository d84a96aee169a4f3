import VisualScript.Format.Graph
import VisualScript.Json.Printer
import VisualScript.Script.Unit

namespace VisualScript

/-- The interchange form of a map. -/
def OrderedMap.toJson {α β : Type} (key : α → String) (value : β → Json) (m : OrderedMap α β) : Json :=
  .object (m.entries.map fun p => (key p.1, value p.2))

namespace ParentClass

def toJson (p : ParentClass) : Json :=
  .object [("name", .str p.name), ("functions", .list Signature.toJson p.functions)]

def ofJson : Decoder ParentClass := fun d j => do
  let r ← Record.decode ["name", "functions"] d j
  return ⟨← r.get "name" .string, ← r.getD "functions" [] (.list Signature.ofJson)⟩

end ParentClass

namespace InterfaceDecl

def toJson (i : InterfaceDecl) : Json :=
  .object [("name", .str i.name), ("functions", .list Signature.toJson i.functions)]

def ofJson : Decoder InterfaceDecl := fun d j => do
  let r ← Record.decode ["name", "functions"] d j
  return ⟨← r.get "name" .string, ← r.getD "functions" [] (.list Signature.ofJson)⟩

end InterfaceDecl

namespace VariableDecl

def toJson (v : VariableDecl) : Json :=
  .object [("name", .str v.name), ("ty", v.type.toJson), ("default_value", .option .str v.default)]

def ofJson : Decoder VariableDecl := fun d j => do
  let r ← Record.decode ["name", "ty", "default_value"] d j
  return ⟨← r.get "name" .string, ← r.get "ty" PinType.ofJson, ← r.optional "default_value" .string⟩

end VariableDecl

namespace ComponentDecl

def toJson (c : ComponentDecl) : Json := .object [("name", .str c.name), ("class", .str c.cls)]

def ofJson : Decoder ComponentDecl := fun d j => do
  let r ← Record.decode ["name", "class"] d j
  return ⟨← r.get "name" .string, ← r.get "class" .string⟩

end ComponentDecl

namespace MacroLibrary

def toJson (m : MacroLibrary) : Json := OrderedMap.toJson id ScriptGraph.toJson m

def ofJson : Decoder MacroLibrary := .orderedMap Decoder.key? ScriptGraph.ofJson

end MacroLibrary

namespace CompilationUnit

def toJson (u : CompilationUnit) : Json :=
  .object
    [("name", .str u.name), ("parent", .option ParentClass.toJson u.parent),
      ("interfaces", .list InterfaceDecl.toJson u.interfaces),
      ("variables", .list VariableDecl.toJson u.fields),
      ("components", .list ComponentDecl.toJson u.components),
      ("function_graphs", .list ScriptGraph.toJson u.functionGraphs),
      ("event_graphs", .list ScriptGraph.toJson u.eventGraphs), ("macros", MacroLibrary.toJson u.macros)]

def ofJson : Decoder CompilationUnit := fun d j => do
  let r ← Record.decode
    ["name", "parent", "interfaces", "variables", "components", "function_graphs", "event_graphs",
      "macros"] d j
  let name := r.get "name" .string
  let parent := r.optional "parent" ParentClass.ofJson
  let interfaces := r.getD "interfaces" [] (.list InterfaceDecl.ofJson)
  let fields := r.getD "variables" [] (.list VariableDecl.ofJson)
  let components := r.getD "components" [] (.list ComponentDecl.ofJson)
  let functionGraphs := r.getD "function_graphs" [] (.list ScriptGraph.ofJson)
  let eventGraphs := r.getD "event_graphs" [] (.list ScriptGraph.ofJson)
  let macros := r.getD "macros" ∅ MacroLibrary.ofJson
  r.settle
    [("name", discard name), ("parent", discard parent), ("interfaces", discard interfaces),
      ("variables", discard fields),
      ("components", discard components), ("function_graphs", discard functionGraphs),
      ("event_graphs", discard eventGraphs), ("macros", discard macros)]
  return {
    name := ← name
    parent := ← parent
    interfaces := ← interfaces
    fields := ← fields
    components := ← components
    functionGraphs := ← functionGraphs
    eventGraphs := ← eventGraphs
    macros := ← macros }

/-- The text a unit is saved as. -/
def toText (u : CompilationUnit) : String := u.toJson.pretty

def ofText (s : String) : Except DecodeError CompilationUnit := ofJson.text s

end CompilationUnit

end VisualScript
