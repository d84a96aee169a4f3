import VisualScript.Working.Basic

namespace VisualScript

/-- How nodes of one kind are compiled. -/
structure Handler where
  /-- Declares the terms of a node and binds its outputs. -/
  register : Env → NodeId → ScriptNode → Build Unit := fun _ id n => Build.outputLocals id n
  /-- The statements of a node. -/
  emit : Env → NodeId → ScriptNode → Build (List Statement)
  isPure : ScriptNode → Bool := fun n => n.isPure
  /-- The terms belong to the signature and are registered before all others. -/
  early : Bool := false
  /-- Unreachable nodes are kept too. -/
  keeps : CompileOptions → ScriptNode → Bool := fun _ _ => false
  /-- The node is reachable by definition. -/
  isRoot : ScriptNode → Bool := fun _ => false

abbrev Registry := OrderedMap KindTag Handler

namespace Registry

def handler? (r : Registry) (n : ScriptNode) : Option Handler := r.get? n.kind.tag

/-- Nodes without a handler are as pure as they say. -/
def isPure (r : Registry) (n : ScriptNode) : Bool := match r.handler? n with
  | some h => h.isPure n
  | none => n.isPure

def isEarly (r : Registry) (n : ScriptNode) : Bool := match r.handler? n with
  | some h => h.early
  | none => false

def keeps (r : Registry) (options : CompileOptions) (n : ScriptNode) : Bool := match r.handler? n with
  | some h => h.keeps options n
  | none => false

def isRoot (r : Registry) (n : ScriptNode) : Bool :=
  n.kind.isEntry || match r.handler? n with
    | some h => h.isRoot n
    | none => false

/-- The kinds that have a handler, by name. -/
def describe (r : Registry) : String :=
  let kinds := (r.keys.map KindTag.display).mergeSort fun a b => a ≤ b
  "HandlerRegistry \x7b kinds: " ++ Text.quotedList kinds ++ " \x7d"

/-- Lets the handler of a node register its terms. -/
def registerNode (r : Registry) (env : Env) (id : NodeId) : Build Unit := do
  match (← get).graph.node? id with
  | none => return ()
  | some n => match r.handler? n with
    | some h => h.register env id n
    | none => return ()

/-- Lets the handler of a node emit its statements. -/
def emitNode (r : Registry) (env : Env) (id : NodeId) : Build (List Statement) := do
  match (← get).graph.node? id with
  | none => return []
  | some n => match r.handler? n with
    | some h => h.emit env id n
    | none => return []

end Registry

end VisualScript
