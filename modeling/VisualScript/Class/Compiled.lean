import VisualScript.Class.Layout
import VisualScript.Code.Body
import VisualScript.Options
import VisualScript.Report.Diagnostic

namespace VisualScript

/-- What a compiled function is for. -/
inductive FunctionRole where
  | function
  | eventGraph
  | eventStub
deriving DecidableEq

/-- How far the compilation of a unit has come. -/
inductive CompileState where
  | idle
  | schemaReady
  | classLayoutBuilt
  | functionsPrecompiled
  | functionsCompiled
  | classFinalized
deriving DecidableEq

namespace CompileState

def next? : CompileState → Option CompileState
  | .idle => some .schemaReady
  | .schemaReady => some .classLayoutBuilt
  | .classLayoutBuilt => some .functionsPrecompiled
  | .functionsPrecompiled => some .functionsCompiled
  | .functionsCompiled => some .classFinalized
  | .classFinalized => none

def table : List (String × CompileState) :=
  [("Idle", .idle), ("SchemaReady", .schemaReady), ("ClassLayoutBuilt", .classLayoutBuilt),
    ("FunctionsPrecompiled", .functionsPrecompiled), ("FunctionsCompiled", .functionsCompiled),
    ("ClassFinalized", .classFinalized)]

def name (s : CompileState) : String := match table.find? fun p => p.2 = s with
  | some p => p.1
  | none => ""

end CompileState

structure CompiledFunction where
  name : String
  role : FunctionRole
  signature : Signature
  overrideOf : Option String := none
  symbols : SymbolTable := {}
  body : Body := {}
  abandoned : Bool := false
  sourceGraph : String := ""
  signatureHash : String := ""
  fingerprint : String := ""
  intermediateGraph : Option ScriptGraph := none

structure CompiledClass where
  name : String
  mode : CompileMode
  state : CompileState
  layout : ClassLayout
  functions : List CompiledFunction := []
  defaultObject : Option DefaultObject := none
  diagnostics : MessageLog := []
  skeletonHash : String := ""

namespace CompiledClass

/-- Whether the class reached the last state of its mode without errors. -/
def isSuccess (c : CompiledClass) : Bool :=
  let last : CompileState := match c.mode with
    | .skeleton => .classLayoutBuilt
    | .full => .classFinalized
  c.state = last && !c.diagnostics.hasErrors

def function? (c : CompiledClass) (name : String) : Option CompiledFunction :=
  c.functions.find? fun f => f.name = name

end CompiledClass

end VisualScript
