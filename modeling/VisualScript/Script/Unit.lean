import VisualScript.Script.Kind

namespace VisualScript

structure ParentClass where
  name : String
  functions : List Signature := []

structure InterfaceDecl where
  name : String
  functions : List Signature := []

structure VariableDecl where
  name : String
  type : PinType
  default : Option String := none
deriving DecidableEq

structure ComponentDecl where
  name : String
  cls : String
deriving DecidableEq

/-- Bodies that macro instances are replaced by, under the names they are called by. -/
abbrev MacroLibrary := OrderedMap String ScriptGraph

/-- A name that is taken already. -/
structure DuplicateName where
  name : String
deriving DecidableEq

def DuplicateName.message (e : DuplicateName) : String := "duplicate name: '" ++ e.name ++ "'"

/-- Adds a body under its own name, which has to be free. -/
def MacroLibrary.add (lib : MacroLibrary) (g : ScriptGraph) : Except DuplicateName MacroLibrary :=
  if lib.contains g.name then .error ⟨g.name⟩ else .ok (lib.insert g.name g)

/-- All that one class is compiled from. -/
structure CompilationUnit where
  name : String
  parent : Option ParentClass := none
  interfaces : List InterfaceDecl := []
  fields : List VariableDecl := []
  components : List ComponentDecl := []
  functionGraphs : List ScriptGraph := []
  eventGraphs : List ScriptGraph := []
  macros : MacroLibrary := ∅

namespace CompilationUnit

def find? (owner name : String) (functions : List Signature) : Option (String × Signature) :=
  (functions.find? fun f => f.name = name).map fun f => (owner, f)

/-- The signature a function of that name overrides, with its owner: the parent comes first, then
the interfaces in order. -/
def inherited? (u : CompilationUnit) (name : String) : Option (String × Signature) :=
  match u.parent.bind fun p => find? p.name name p.functions with
  | some r => some r
  | none => u.interfaces.findSome? fun i => find? i.name name i.functions

end CompilationUnit

end VisualScript
