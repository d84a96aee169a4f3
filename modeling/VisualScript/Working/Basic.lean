import VisualScript.Class.Compiled

namespace VisualScript

/-- What a function is compiled against. -/
structure Env where
  options : CompileOptions := {}
  schema : Schema := {}

/-- A function while it is being compiled: a private copy of its graph with the origins of the nodes,
its terms and what was reported. A handler may ask to cancel the compilation, or fail altogether. -/
structure Working where
  function : String
  role : FunctionRole
  sourceGraph : String
  graph : ScriptGraph
  provenance : Provenance := ∅
  terms : TermTable := {}
  entry : Option NodeId := none
  diagnostics : List Diagnostic := []
  cancelled : Bool := false
  crashed : Bool := false

/-- Why a function has no body. -/
structure Abandoned where
  function : String
  errors : Nat
deriving DecidableEq

def Abandoned.message (a : Abandoned) : String :=
  s!"compilation of '{a.function}' abandoned after {a.errors} error(s)"

/-- A step of the compilation of a function. -/
abbrev Build := StateM Working

namespace Working

/-- Starts from a graph that is a private copy already. -/
def ofGraph (function : String) (role : FunctionRole) (graph : ScriptGraph)
    (provenance : Provenance) : Working :=
  { function, role, sourceGraph := graph.name, graph, provenance, entry := graph.entries.head? }

/-- Starts from a copy of an authored graph. -/
def ofAuthored (function : String) (role : FunctionRole) (authored : ScriptGraph) : Working :=
  let (map, graph) := authored.clone
  ofGraph function role graph (Provenance.recordClone ∅ map authored.name)

/-- Where an issue with a working node is in authored content. -/
def locate (w : Working) (node : Option NodeId) (port : Option UInt16) : SourceLocation :=
  match node with
  | none => { function := w.function }
  | some id =>
      { function := w.function
        source := (w.provenance.get? id).map Origin.source
        callSite := w.provenance.outermostCallSite? id
        port := (port.bind fun index => w.graph.port? ⟨id, index⟩).map Port.name }

def report (w : Working) (issue : Issue) (node : Option NodeId) (port : Option UInt16 := none) : Working :=
  { w with diagnostics := w.diagnostics ++ [⟨issue, w.locate node port⟩] }

def errorCount (w : Working) : Nat := w.diagnostics.countP Diagnostic.isError

def hasErrors (w : Working) : Bool := w.diagnostics.any Diagnostic.isError

/-- A function is given up as soon as an error stands at the end of a phase. -/
def checkpoint (w : Working) : Except Abandoned Unit :=
  if w.hasErrors then .error ⟨w.function, w.errorCount⟩ else .ok ()

/-- Removes a node and forgets where it came from. -/
def removeNode (w : Working) (id : NodeId) : Working :=
  { w with graph := w.graph.removeNode id, provenance := w.provenance.forget id }

/-- Looks at the links of a port, which have to be listed for this. -/
def inspect (w : Working) (p : PortRef) : Working := { w with crashed := w.crashed || w.graph.frayedAt p }

/-- Whether the function is beyond compiling: a handler failed, or its graph is of no use. -/
def failed (w : Working) : Bool := w.crashed || w.graph.ruined

end Working

namespace Build

def report (issue : Issue) (node : Option NodeId) (port : Option UInt16 := none) : Build Unit :=
  modify fun w => w.report issue node port

/-- Runs an operation of the term table. -/
def onTerms {α : Type} (f : TermTable → α × TermTable) : Build α := fun w =>
  let (a, terms) := f w.terms
  (a, { w with terms })

def bind (port : PortRef) (term : TermId) : Build Unit :=
  modify fun w => { w with terms := w.terms.bind port term }

def literal (type : PinType) (value : String) : Build TermId := onTerms fun t => t.addLiteral type value

/-- The term that feeds a data input: that of the linked output, or a literal of the default. -/
def inputTerm (port : PortRef) : Build TermId := do
  modify fun w => w.inspect port
  let w ← get
  match (w.graph.farEnds port).head?.bind w.terms.net? with
  | some term => return term
  | none => match w.graph.port? port with
    | some p => literal p.type (p.default.getD p.type.zeroLiteral)
    | none => literal .wildcard ""

/-- The terms of all data inputs, in port order. -/
def dataInputs (id : NodeId) : Build (List TermId) := do
  match (← get).graph.node? id with
  | some n => (n.portsWhere .data .input).mapM fun p => inputTerm ⟨id, p.1⟩
  | none => return []

end Build

namespace Working

/-- The terms bound to the data outputs, in port order. -/
def dataOutputs (w : Working) (id : NodeId) : List TermId :=
  match w.graph.node? id with
  | some n => (n.portsWhere .data .output).filterMap fun p => w.terms.net? ⟨id, p.1⟩
  | none => []

/-- Where execution goes on behind a control output. -/
def follow (w : Working) (id : NodeId) (port : String) : JumpTarget :=
  match (w.graph.findPort? id port .output).bind fun p => (w.graph.farEnds p).head? with
  | some far => .node far.node
  | none => .endOfThread

def followJump (w : Working) (id : NodeId) (port : String) : Statement := .jump (w.follow id port)

end Working

namespace Build

/-- The term of a class-scope slot. If something else holds its name, that is reported and a term of
the function takes its place. -/
def classSlot (kind : TermKind) (name : String) (type : PinType) (node : NodeId) : Build TermId := do
  match (← get).terms.member kind name type with
  | .ok (id, terms) =>
      modify fun w => { w with terms }
      return id
  | .error clash =>
      report (.classSlotClash clash.name) (some node)
      onTerms fun t => t.add kind name type

/-- The term a variable stands for: a local of the function, or else a member of the class. -/
def variableTerm? (env : Env) (name : String) (node : NodeId) : Build (Option TermId) := do
  match (← get).terms.find? .local name with
  | some id => return some id
  | none => match env.schema.member? name with
    | some m => return some (← classSlot .member m.name m.type node)
    | none => return none

/-- Binds every unbound data output to a local of its own. -/
def outputLocals (id : NodeId) (n : ScriptNode) : Build Unit :=
  (n.portsWhere .data .output).forM fun p => do
    match (← get).terms.net? ⟨id, p.1⟩ with
    | some _ => return ()
    | none =>
        let term ← onTerms fun t => t.add .local (n.title ++ "_" ++ p.2.name) p.2.type
        bind ⟨id, p.1⟩ term

end Build

end VisualScript
