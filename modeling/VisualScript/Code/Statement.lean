import VisualScript.Provenance
import VisualScript.Script.Kind
import VisualScript.Term.Table

namespace VisualScript

/-- Where a jump goes: to the block of a node before linking, to an offset after it, or to the flow
that was pushed last. -/
inductive JumpTarget where
  | node (id : NodeId)
  | offset (n : Nat)
  | endOfThread
deriving DecidableEq

inductive Statement where
  | comment (text : String)
  | debugSite (node : NodeId)
  | boundary (site : BoundarySite) (callSite : Option SourceRef)
  | callFunction (function : String) (args results : List TermId)
  | assign (dest src : TermId)
  | createArray (dest : TermId) (elements : List TermId)
  | goto (target : JumpTarget)
  | gotoIfNot (condition : TermId) (target : JumpTarget)
  | pushFlow (target : JumpTarget)
  | endOfThread
  | computedGoto (index : TermId)
  | callEventGraph (function event : String) (entryOffset : Option Nat)
  | ret
  | custom (name : String) (args : List TermId)
deriving DecidableEq

namespace Statement

def target? : Statement → Option JumpTarget
  | .goto t => some t
  | .gotoIfNot _ t => some t
  | .pushFlow t => some t
  | _ => none

def mapTarget (f : JumpTarget → JumpTarget) : Statement → Statement
  | .goto t => .goto (f t)
  | .gotoIfNot c t => .gotoIfNot c (f t)
  | .pushFlow t => .pushFlow (f t)
  | s => s

/-- The jump to a target. -/
def jump : JumpTarget → Statement
  | .endOfThread => .endOfThread
  | t => .goto t

end Statement

end VisualScript
