import VisualScript.Class.Listing
import VisualScript.Compile.Unit

namespace VisualScript

/-- What the command line asks for. -/
inductive Command where
  | compile (unit : String) (options : Option String) (skeleton debug comments json origins : Bool)
  | check (unit : String)
deriving DecidableEq

/-- What a command prints, and its exit code: 0 for success, 1 if the unit has errors, 2 for a failed
call and 3 if a file cannot be read. -/
structure Outcome where
  code : Nat
  out : List String := []
  err : List String := []
deriving DecidableEq

namespace Command

/-- Reads a file, or tells why that is not possible. -/
abbrev Files := String → Except String String

def unreadable (path reason : String) : Outcome :=
  ⟨3, [], ["Error: failed to read '" ++ path ++ "': " ++ reason]⟩

def loadUnit (files : Files) (path : String) : Except Outcome CompilationUnit :=
  match files path with
  | .error reason => .error (unreadable path reason)
  | .ok text => match CompilationUnit.ofText text with
    | .ok u => .ok u
    | .error e => .error ⟨2, [],
        ["Error: invalid compilation unit '" ++ path ++ "': invalid unit description: " ++ e.message]⟩

def loadOptions (files : Files) (path : String) : Except Outcome CompileOptions :=
  match files path with
  | .error reason => .error (unreadable path reason)
  | .ok text => match CompileOptions.ofJson.text text with
    | .error e => .error ⟨2, [], ["Error: JSON error: " ++ e.message]⟩
    | .ok o => match o.check with
      | .ok () => .ok o
      | .error reason => .error ⟨2, [], ["Error: " ++ (CompileError.options reason).message]⟩

/-- The diagnostics of a class behind what is printed of it. -/
def report (c : CompiledClass) (out : List String) : Outcome :=
  ⟨if c.isSuccess then 0 else 1, out, c.diagnostics.map Diagnostic.text⟩

def compileUnit (u : CompilationUnit) (options : CompileOptions)
    (print : CompiledClass → List String) : Outcome :=
  match Compiler.compile { options } u with
  | .ok c => report c (print c)
  | .error e => ⟨2, [], ["Compilation error: " ++ e.message]⟩

/-- The options of the file with those of the flags. -/
def settings (o : CompileOptions) (skeleton debug comments : Bool) : CompileOptions :=
  { o with
    mode := if skeleton then .skeleton else o.mode
    debugInstrumentation := o.debugInstrumentation || debug
    emitNodeComments := o.emitNodeComments || comments }

/-- Runs a command. Options are read before the unit. -/
def run (files : Files) : Command → Outcome
  | .check path => match loadUnit files path with
    | .error o => o
    | .ok u => compileUnit u {} fun _ => []
  | .compile path options skeleton debug comments json origins =>
      let loaded := match options with
        | some file => loadOptions files file
        | none => .ok {}
      match loaded with
      | .error o => o
      | .ok o => match loadUnit files path with
        | .error o => o
        | .ok u => compileUnit u (settings o skeleton debug comments) fun c =>
            [if json then c.toJson.pretty else c.listing origins]

/-- The words behind `compile`, sorted out. -/
structure Arguments where
  path : Option String := none
  options : Option String := none
  flags : List String := []

def flagWords : List String := ["--skeleton", "--debug", "--comments", "--json", "--origins"]

/-- Sorts out paths and flags, each at most once. -/
def arguments : List String → Arguments → Option Arguments
  | [], a => some a
  | "--options" :: file :: rest, a =>
      if a.options.isSome then none else arguments rest { a with options := some file }
  | word :: rest, a =>
      if word ∈ flagWords then
        if word ∈ a.flags then none else arguments rest { a with flags := word :: a.flags }
      else if word.startsWith "-" || a.path.isSome then none
      else arguments rest { a with path := some word }

/-- Reads the words of a command line. -/
def parse? : List String → Option Command
  | "check" :: words => match words with
    | [path] => some (.check path)
    | _ => none
  | "compile" :: words => (arguments words {}).bind fun a => a.path.map fun path =>
      .compile path a.options ("--skeleton" ∈ a.flags) ("--debug" ∈ a.flags) ("--comments" ∈ a.flags)
        ("--json" ∈ a.flags) ("--origins" ∈ a.flags)
  | _ => none

end Command

end VisualScript
