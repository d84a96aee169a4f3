import VisualScript.Text.Quoted

namespace VisualScript

inductive Severity where
  | warning
  | error
deriving DecidableEq

/-- What an issue is about. Only warnings leave the function usable. -/
inductive IssueKind where
  | structural
  | type
  | signatureMismatch
  | warning
deriving DecidableEq

def IssueKind.severity : IssueKind → Severity
  | .warning => .warning
  | _ => .error

/-- Something wrong with an authored unit. -/
inductive Issue where
  | missingEntry (graph : String)
  | multipleEntries (graph : String) (count : Nat)
  | duplicateFunction (name : String)
  | duplicateEvent (name : String)
  | controlFanOut (node port : String) (count : Nat)
  | dataFanIn (node port : String) (count : Nat)
  | scheduleCycle (nodes : List String)
  | missingMacro (node macroName : String)
  | recursiveExpansion (macroName detail : String)
  | missingTunnelPort (node macroName port : String)
  | tunnelCollapse (node reason : String)
  | classSlotClash (name : String)
  | unknownNodeKind (node kind : String)
  | unknownVariable (node name : String)
  | invalidLink (reason : String)
  | typeMismatch (fromNode fromPort toNode toPort expected actual : String)
  | interfaceToObject (node port interface cls : String)
  | unresolvedWildcard (node port : String)
  | parameterOrder (function param : String)
  | unexpectedParameter (function param : String)
  | parameterType (function param expected actual : String)
  | netFlagMismatch (function parent : String)
  | missingOverrideTarget (function : String)
  | prunedValueReadAsDefault (node consumer : String)
  | nonPureWithoutControl (node : String)
  | nameAutoRenamed (old new : String)
  | deprecatedNode (node : String)
  | unparsableDefault (member value type : String)
  | accessSpecifierMismatch (function parent : String)
deriving DecidableEq

namespace Issue

def kind : Issue → IssueKind
  | .missingEntry .. | .multipleEntries .. | .duplicateFunction .. | .duplicateEvent .. | .controlFanOut ..
  | .dataFanIn .. | .scheduleCycle .. | .missingMacro .. | .recursiveExpansion .. | .missingTunnelPort ..
  | .tunnelCollapse .. | .classSlotClash .. | .unknownNodeKind .. | .unknownVariable
      .. | .invalidLink .. =>
      .structural
  | .typeMismatch .. | .interfaceToObject .. | .unresolvedWildcard .. => .type
  | .parameterOrder .. | .unexpectedParameter .. | .parameterType .. | .netFlagMismatch ..
  | .missingOverrideTarget .. => .signatureMismatch
  | .prunedValueReadAsDefault .. | .nonPureWithoutControl .. | .nameAutoRenamed .. | .deprecatedNode ..
  | .unparsableDefault .. | .accessSpecifierMismatch .. => .warning

def severity (i : Issue) : Severity := i.kind.severity

def isError (i : Issue) : Bool := i.severity = .error

def message : Issue → String
  | .missingEntry graph => s!"could not find a root node in graph '{graph}'"
  | .multipleEntries graph count => s!"graph '{graph}' has {count} entry nodes; a function has exactly one"
  | .duplicateFunction name => s!"function '{name}' is defined more than once"
  | .duplicateEvent name => s!"event '{name}' is implemented more than once"
  | .controlFanOut node port count =>
      s!"control output '{port}' of '{node}' has {count} links; at most one is allowed"
  | .dataFanIn node port count =>
      s!"data input '{port}' of '{node}' has {count} links; at most one is allowed"
  | .scheduleCycle nodes => "control flow cycle through " ++ Text.quotedList nodes ++
      " without a loop node"
  | .missingMacro node macroName =>
      s!"macro node '{node}' is pointing at an invalid macro graph '{macroName}'"
  | .recursiveExpansion macroName detail => s!"recursive expansion of '{macroName}': {detail}"
  | .missingTunnelPort node macroName port =>
      s!"macro '{macroName}' has no port '{port}' used by instance '{node}'"
  | .tunnelCollapse node reason => s!"failed to collapse tunnel '{node}': {reason}"
  | .classSlotClash name => s!"'{name}' names both a class member and a persistent frame slot"
  | .unknownNodeKind node kind => s!"unexpected node type {kind} on '{node}': no handler is registered"
  | .unknownVariable node name => s!"'{node}' refers to unknown variable '{name}'"
  | .invalidLink reason => s!"could not rewire links: {reason}"
  | .typeMismatch fromNode fromPort toNode toPort expected actual =>
      s!"'{fromNode}'.{fromPort} ({actual}) cannot connect to '{toNode}'.{toPort} ({expected})"
  | .interfaceToObject node port interface cls =>
      s!"interface '{interface}' connected to object input '{node}'.{port} ({cls}); use an explicit cast"
  | .unresolvedWildcard node port =>
      s!"port '{port}' of '{node}' still has a wildcard type after expansion"
  | .parameterOrder function param => s!"cannot order parameters {param} in function {function}"
  | .unexpectedParameter function param =>
      s!"parameter '{param}' of {function} does not exist in the overridden signature"
  | .parameterType function param expected actual =>
      s!"parameter '{param}' of {function} is {actual}; the overridden signature declares {expected}"
  | .netFlagMismatch function parent => s!"{function} declares network flags that differ from {parent}"
  | .missingOverrideTarget function =>
      s!"{function} is marked as an override but nothing named so is inherited"
  | .prunedValueReadAsDefault node consumer =>
      s!"'{node}' was pruned; '{consumer}' will read its value as default"
  | .nonPureWithoutControl node => s!"'{node}' is not pure but has no control ports and was not reached"
  | .nameAutoRenamed old new => s!"'{old}' conflicts with an existing name and was renamed to '{new}'"
  | .deprecatedNode node => s!"'{node}' is deprecated"
  | .unparsableDefault member value type =>
      s!"default '{value}' of '{member}' is not a valid {type}; using the type's zero value"
  | .accessSpecifierMismatch function parent =>
      s!"access specifier of {function} differs from {parent}; inherited specifier used"

end Issue

end VisualScript
