import VisualScript.Report.Issue
import VisualScript.Signature.Basic

namespace VisualScript

/-- A signature after it was matched with the one it overrides. -/
structure SignatureMatch where
  signature : Signature
  overrideOf : Option String := none
  issues : List Issue := []

namespace SignatureMatch

def hasErrors (m : SignatureMatch) : Bool := m.issues.any Issue.isError

/-- A function that overrides nothing is public unless it says otherwise, and can be overridden unless
it is final, private, an event or the event graph. -/
def ownFlags (f : Flags) : Flags :=
  let f := if f.access.isEmpty then f.union .isPublic else f
  let closed := Flags.isFinal.union (Flags.isPrivate.union (Flags.eventGraph.union .event))
  if f.intersects closed then f else f.union .overridable

def describe (p : Param) : String :=
  match p.direction with
  | .input => p.type.display
  | .output => "out " ++ p.type.display

/-- How a declared parameter answers to an inherited one of the same name. -/
def paramIssue? (function : String) (declared : Signature) (expected : Param) : Option Issue :=
  match declared.param? expected.name with
  | none => some (.parameterOrder function expected.name)
  | some actual =>
      if actual.type ≠ expected.type ∨ actual.direction ≠ expected.direction then
        some (.parameterType function expected.name (describe expected) (describe actual))
      else none

def paramIssues (declared parent : Signature) : List Issue :=
  parent.params.filterMap (paramIssue? declared.name declared) ++
    (declared.params.filter fun p => (parent.param? p.name).isNone).map fun p =>
      .unexpectedParameter declared.name p.name

/-- The declared parameters in the inherited order. -/
def reordered (declared parent : Signature) : List Param :=
  parent.params.filterMap fun p => declared.param? p.name

def parentAccess (parent : Flags) : Flags := if parent.access.isEmpty then .isPublic else parent.access

/-- Visibility and replication are inherited, and so are purity, constness and being overridable. -/
def mergedFlags (declared parent : Flags) : Flags :=
  let kept := Flags.isPure.union (Flags.isConst.union .overridable)
  let f := (declared.diff .accessMask).union (parentAccess parent)
  ((f.diff .netMask).union parent.net).union (parent.inter kept)

def flagIssues (function owner : String) (declared parent : Flags) : List Issue :=
  (if declared.access.isEmpty = false ∧ declared.access ≠ parentAccess parent then
    [.accessSpecifierMismatch function owner] else []) ++
  if declared.net.isEmpty = false ∧ declared.net ≠ parent.net then
    [.netFlagMismatch function owner] else []

/-- Matches a declared signature with the inherited one. Something marked as an override has to find
one. -/
def resolve (declared : Signature) (inherited : Option (String × Signature)) (mustOverride : Bool) :
    SignatureMatch :=
  match inherited with
  | none =>
      { signature := { declared with flags := ownFlags declared.flags }
        issues := if mustOverride then [.missingOverrideTarget declared.name] else [] }
  | some (owner, parent) =>
      let issues := paramIssues declared parent
      { signature :=
          { declared with
            params := if issues.isEmpty then reordered declared parent else declared.params
            flags := mergedFlags declared.flags parent.flags }
        overrideOf := some owner
        issues := issues ++ flagIssues declared.name owner declared.flags parent.flags }

end SignatureMatch

end VisualScript
