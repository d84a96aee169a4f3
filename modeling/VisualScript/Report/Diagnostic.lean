import VisualScript.Provenance
import VisualScript.Report.Issue

namespace VisualScript

/-- Where a diagnostic points: the function or class, and the authored node, port and call site. -/
structure SourceLocation where
  function : String
  source : Option SourceRef := none
  port : Option String := none
  callSite : Option SourceRef := none
deriving DecidableEq

structure Diagnostic where
  issue : Issue
  location : SourceLocation
deriving DecidableEq

namespace Diagnostic

def isError (d : Diagnostic) : Bool := d.issue.isError

/-- An issue of a function or class as a whole. -/
def ofFunction (function : String) (issue : Issue) : Diagnostic := ⟨issue, { function }⟩

def text (d : Diagnostic) : String :=
  let severity := match d.issue.severity with
    | .warning => "warning"
    | .error => "error"
  let source := match d.location.source with
    | some s => " at " ++ s.text
    | none => ""
  let port := match d.location.port with
    | some p => "." ++ p
    | none => ""
  let site := match d.location.callSite with
    | some s => " via " ++ s.text
    | none => ""
  severity ++ ": " ++ d.issue.message ++ " [" ++ d.location.function ++ source ++ port ++ site ++ "]"

end Diagnostic

/-- All diagnostics of a unit, in the order they were reported. -/
abbrev MessageLog := List Diagnostic

namespace MessageLog

def errors (log : MessageLog) : List Diagnostic := log.filter Diagnostic.isError

def warnings (log : MessageLog) : List Diagnostic := log.filter fun d => !d.isError

def hasErrors (log : MessageLog) : Bool := log.any Diagnostic.isError

def errorCount (log : MessageLog) : Nat := log.countP Diagnostic.isError

def ofFunction (log : MessageLog) (function : String) : List Diagnostic :=
  log.filter fun d => d.location.function = function

end MessageLog

end VisualScript
