namespace VisualScript

/-- How far a class is compiled. -/
inductive CompileMode where
  | skeleton
  | full
deriving DecidableEq

structure CompileOptions where
  mode : CompileMode := .full
  debugInstrumentation : Bool := false
  emitNodeComments : Bool := false
  saveIntermediateProducts : Bool := false
  includePotentialRoots : Bool := false
  persistentEventGraphFrame : Bool := true
  maxExpansionDepth : Nat := 32
  maxExpandedNodes : Nat := 50000
deriving DecidableEq

/-- A limit that leaves nothing to do. -/
inductive OptionsError where
  | expansionDepth
  | expandedNodes
deriving DecidableEq

def OptionsError.message : OptionsError → String
  | .expansionDepth => "max_expansion_depth must be at least 1"
  | .expandedNodes => "max_expanded_nodes must be at least 1"

namespace CompileOptions

def skeleton : CompileOptions := { mode := .skeleton }

def check (o : CompileOptions) : Except OptionsError Unit :=
  if o.maxExpansionDepth = 0 then .error .expansionDepth
  else if o.maxExpandedNodes = 0 then .error .expandedNodes
  else .ok ()

end CompileOptions

end VisualScript
