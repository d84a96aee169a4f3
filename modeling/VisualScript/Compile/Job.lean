import VisualScript.Class.Fingerprint
import VisualScript.EventGraph
import VisualScript.Signature.Override
import VisualScript.Working.Phases

namespace VisualScript

/-- One function of a class on its way through the phases. -/
structure Job where
  work : Working
  mustOverride : Bool := false
  signature : Signature := { name := work.function }
  overrideOf : Option String := none
  symbols : SymbolTable := {}
  body : Option Body := none
  abandoned : Bool := false

namespace Job

/-- The function of an event. -/
def ofEvent (info : EventInfo) : Job :=
  let stub := info.stub
  let work := Working.ofGraph stub.event .eventStub stub.graph stub.provenance
  { work := { work with crashed := info.overflows }, mustOverride := stub.spec.isOverride }

/-- The function that all events share. -/
def ofEventGraph (function : String) (e : EventGraph) (issues : List (Issue × NodeId)) : Job :=
  { work := issues.foldl (fun w i => w.report i.1 (some i.2))
      (.ofGraph function .eventGraph e.graph e.provenance) }

/-- The functions, the events and the event graph of a unit, in that order. A unit without events and
event pages has no event graph. -/
def ofUnit (u : CompilationUnit) (schema : Schema) : List Job :=
  let functions : List Job := schema.functions.entries.filterMap fun f =>
    (u.functionGraphs[f.2]?).map fun g => { work := .ofAuthored f.1 .function g }
  let (e, issues) := EventGraph.ofUnit u schema
  if e.events.isEmpty && u.eventGraphs.isEmpty then functions
  else functions ++ e.events.values.map ofEvent ++ [ofEventGraph schema.eventGraphFunction e issues]

/-- The flags the entry declares. -/
def declaredFlags (w : Working) : Flags :=
  match (w.entry.bind w.graph.node?).bind fun n => n.kind.entrySpec? with
  | some spec => spec.flags
  | none => {}

/-- Registers the terms of the signature and matches it with what it overrides. -/
def registerSignature (r : Registry) (env : Env) (u : CompilationUnit) (j : Job) : Job :=
  let w := j.work.validateEntries.registerTerms r env true
  let declared := w.terms.signature w.function (declaredFlags w)
  let inherited := if w.role = .eventGraph then none else u.inherited? w.function
  let m := SignatureMatch.resolve declared inherited j.mustOverride
  { j with
    work := m.issues.foldl (fun w i => w.report i w.entry) w
    signature := m.signature
    overrideOf := m.overrideOf }

def precompile (r : Registry) (env : Env) (macros : MacroLibrary) (j : Job) : Job :=
  let work := j.work.precompile r env macros
  { j with work, abandoned := work.hasErrors }

/-- Whether the locals live in the class instead of the frame of a call. -/
def promotesLocals (env : Env) (j : Job) : Bool :=
  j.work.role = .eventGraph && env.options.persistentEventGraphFrame

def promoted (env : Env) (j : Job) : List PromotedMember :=
  SymbolTable.promotedMembers j.work.terms (j.promotesLocals env)

/-- Assigns storage to the terms there are, then builds the body. -/
def compileBody (r : Registry) (env : Env) (j : Job) : Job :=
  let j := { j with symbols := SymbolTable.ofTerms j.work.terms j.signature (j.promotesLocals env) }
  if j.abandoned then j
  else
    let (body, work) := Build.body r env j.work
    { j with work, body, abandoned := body.isNone }

/-- Where each event starts in the event graph. -/
def eventOffsets (jobs : List Job) : Option (List (String × Nat)) :=
  match jobs.find? fun j => j.work.role = .eventGraph && !j.abandoned with
  | none => none
  | some j => j.body.map fun body => j.work.graph.events.filterMap fun e =>
      (body.blockStart? e.1).map fun offset => (e.2.name, offset)

def patchStatement (offsets : List (String × Nat)) : Statement → Statement
  | .callEventGraph function event _ => .callEventGraph function event (offsets.lookup event)
  | s => s

def patch (offsets : List (String × Nat)) (j : Job) : Job :=
  if j.work.role = .eventStub then
    { j with
      body := j.body.map fun b => { b with statements := b.statements.map (patchStatement offsets) } }
  else j

/-- Tells every event function where its event starts. -/
def patchAll (jobs : List Job) : List Job :=
  match eventOffsets jobs with
  | some offsets => jobs.map (patch offsets)
  | none => jobs

def finalBody (mode : CompileMode) (j : Job) : Body :=
  match mode, j.body with
  | .skeleton, _ => {}
  | .full, some body => if j.abandoned then .stub else body
  | .full, none => .stub

def finish (options : CompileOptions) (j : Job) : CompiledFunction :=
  let body := j.finalBody options.mode
  { name := j.work.function
    role := j.work.role
    signature := j.signature
    overrideOf := j.overrideOf
    symbols := j.symbols
    body
    abandoned := j.abandoned
    sourceGraph := j.work.sourceGraph
    signatureHash := Fingerprint.ofSignature j.signature
    fingerprint := if options.mode = .skeleton then "" else Fingerprint.ofFunction body j.symbols
    intermediateGraph := if options.saveIntermediateProducts then some j.work.graph else none }

end Job

end VisualScript
