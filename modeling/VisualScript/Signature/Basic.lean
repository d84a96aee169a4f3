import VisualScript.PinType
import VisualScript.Signature.Flags

namespace VisualScript

inductive ParamDirection where
  | input
  | output
deriving DecidableEq

structure Param where
  name : String
  type : PinType
  direction : ParamDirection
deriving DecidableEq

/-- What other units see of a function. -/
structure Signature where
  name : String
  params : List Param := []
  flags : Flags := {}
deriving DecidableEq

namespace Signature

def param? (s : Signature) (name : String) : Option Param := s.params.find? fun p => p.name = name

def inputs (s : Signature) : List Param := s.params.filter fun p => p.direction = .input

def outputs (s : Signature) : List Param := s.params.filter fun p => p.direction = .output

def paramNames (s : Signature) : List String := s.params.map Param.name

/-- Only a function without outputs can be an event. -/
def canBeEvent (s : Signature) : Bool := s.outputs.isEmpty

end Signature

end VisualScript
