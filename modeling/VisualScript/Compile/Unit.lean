import VisualScript.Compile.Job
import VisualScript.Working.Standard

namespace VisualScript

/-- Why there is no compiled class at all. -/
inductive CompileError where
  | cancelled (phase : CompileState)
  | options (reason : OptionsError)
  | crashed (unit : String)
deriving DecidableEq

def CompileError.message : CompileError → String
  | .cancelled phase => "compilation cancelled before " ++ phase.name
  | .options reason => "invalid options: " ++ reason.message
  | .crashed unit => "worker thread panicked while compiling '" ++ unit ++ "'"

/-- Compiles units with the same handlers and options. Cancellation is noticed between phases. -/
structure Compiler where
  registry : Registry := .standard
  options : CompileOptions := {}
  cancelled : Bool := false

namespace Compiler

/-- Enters a phase unless a function has failed or the compilation was cancelled. -/
def enter (c : Compiler) (u : CompilationUnit) (jobs : List Job) (phase : CompileState) :
    Except CompileError Unit :=
  if jobs.any fun j => j.work.failed then .error (.crashed u.name)
  else if c.cancelled || jobs.any fun j => j.work.cancelled then .error (.cancelled phase)
  else .ok ()

/-- The class as other units see it, without bodies. -/
def skeleton (c : Compiler) (u : CompilationUnit) (layout : ClassLayout) (log : MessageLog)
    (jobs : List Job) :
    CompiledClass :=
  { name := u.name
    mode := c.options.mode
    state := .classLayoutBuilt
    layout
    functions := jobs.map (Job.finish c.options)
    diagnostics := log ++ jobs.flatMap fun j => j.work.diagnostics
    skeletonHash := Fingerprint.ofSkeleton layout }

/-- The class with its bodies and its default object. -/
def finalize (c : Compiler) (u : CompilationUnit) (schema : Schema) (layout : ClassLayout)
    (log : MessageLog) (promoted : List PromotedMember) (jobs : List Job) : CompiledClass :=
  let layout := layout.addPromoted promoted
  let (object, issues) := layout.defaultObject schema
  let layout := { layout with finalized := true }
  { c.skeleton u layout (log ++ issues.map (.ofFunction u.name)) jobs with
    state := .classFinalized
    defaultObject := some object }

/-- Compiles a unit. What is wrong with the unit is in the log of the class. -/
def compile (c : Compiler) (u : CompilationUnit) : Except CompileError CompiledClass := do
  match c.options.check with
  | .error reason => throw (.options reason)
  | .ok () => pure ()
  c.enter u [] .schemaReady
  let (schema, issues) := Schema.ofUnit u
  let log := issues.map fun i => Diagnostic.ofFunction i.1 i.2
  let env : Env := { options := c.options, schema }
  c.enter u [] .classLayoutBuilt
  let jobs := (Job.ofUnit u schema).map (Job.registerSignature c.registry env u)
  let layout := jobs.foldl (fun l j => l.addFunction j.signature) (ClassLayout.ofSchema u schema)
  if c.options.mode = .skeleton then
    if jobs.any fun j => j.work.failed then throw (.crashed u.name)
    return c.skeleton u layout log jobs
  c.enter u jobs .functionsPrecompiled
  let jobs := jobs.map (Job.precompile c.registry env u.macros)
  c.enter u jobs .functionsCompiled
  let promoted := jobs.flatMap (Job.promoted env)
  let jobs := Job.patchAll (jobs.map (Job.compileBody c.registry env))
  c.enter u jobs .classFinalized
  return c.finalize u schema layout log promoted jobs

/-- Compiles each unit on its own. -/
def compileAll (c : Compiler) (units : List CompilationUnit) : List (Except CompileError CompiledClass) :=
  units.map c.compile

end Compiler

end VisualScript
