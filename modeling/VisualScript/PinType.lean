namespace VisualScript

/-- The category of the values a port carries. -/
inductive BaseType where
  | exec
  | wildcard
  | bool
  | byte
  | int
  | int64
  | float
  | name
  | string
  | text
  | enum (name : String)
  | struct (name : String)
  | object (cls : String)
  | interface (name : String)
deriving DecidableEq

inductive Container where
  | single
  | array
deriving DecidableEq

/-- The type of a port. -/
structure PinType where
  base : BaseType
  container : Container := .single
deriving DecidableEq

namespace BaseType

def display : BaseType → String
  | .exec => "exec"
  | .wildcard => "wildcard"
  | .bool => "bool"
  | .byte => "byte"
  | .int => "int"
  | .int64 => "int64"
  | .float => "float"
  | .name => "name"
  | .string => "string"
  | .text => "text"
  | .enum n => "enum<" ++ n ++ ">"
  | .struct n => "struct<" ++ n ++ ">"
  | .object n => "object<" ++ n ++ ">"
  | .interface n => "interface<" ++ n ++ ">"

/-- The bare name of a named type, or the display text of any other. -/
def shortName : BaseType → String
  | .enum n => n
  | .struct n => n
  | .object n => n
  | .interface n => n
  | t => t.display

end BaseType

namespace PinType

def exec : PinType := ⟨.exec, .single⟩

def wildcard : PinType := ⟨.wildcard, .single⟩

def isExec (t : PinType) : Bool := t.base = .exec

def isWildcard (t : PinType) : Bool := t.base = .wildcard

def isArray (t : PinType) : Bool := t.container = .array

def enumName? (t : PinType) : Option String :=
  match t.base, t.container with
  | .enum n, .single => some n
  | _, _ => none

/-- A wildcard takes the base of the type it was resolved to and keeps its own container. -/
def resolve (t resolved : PinType) : PinType :=
  if t.isWildcard then { t with base := resolved.base } else t

/-- The class every object reference converts to. -/
def rootClass : String := "Object"

/-- Whether a base flows into another inside one container. -/
def baseFlows (a b : BaseType) : Bool :=
  a = b || match a, b with
    | .byte, .enum _ => true
    | .enum _, .byte => true
    | .object _, .object cls => cls = rootClass
    | _, _ => false

/-- Whether a value of the first type may flow into an input of the second. -/
def flowsInto (source target : PinType) : Bool :=
  if source.isWildcard || target.isWildcard then true
  else if source.isExec || target.isExec then source.isExec && target.isExec
  else source.container = target.container && baseFlows source.base target.base

/-- An interface reference in front of an object input, which needs a cast. -/
def needsCast (source target : PinType) : Bool :=
  match source.base, target.base with
  | .interface _, .object _ => true
  | _, _ => false

def display (t : PinType) : String :=
  match t.container with
  | .single => t.base.display
  | .array => "array<" ++ t.base.display ++ ">"

/-- The literal text of the zero value. -/
def zeroLiteral (t : PinType) : String :=
  match t.container with
  | .array => "()"
  | .single => match t.base with
    | .bool => "false"
    | .byte | .int | .int64 | .enum _ => "0"
    | .float => "0.0"
    | .struct _ => "()"
    | .object _ | .interface _ => "None"
    | .name | .string | .text | .exec | .wildcard => ""

end PinType

end VisualScript
