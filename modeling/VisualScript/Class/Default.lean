import VisualScript.Class.Schema
import VisualScript.Decimal.Reading
import VisualScript.Decimal.Shortest

namespace VisualScript

/-- The value a member starts with. -/
inductive DefaultValue where
  | bool (b : Bool)
  | int (n : Int)
  | float (x : Binary64)
  | str (s : String)
  | name (s : String)
  | enum (enumName value : String)
  | struct (text : String)
  | object (component : Option String)
  | array (items : List DefaultValue)
  | none

namespace DefaultValue

open Text

def zero (t : PinType) : DefaultValue :=
  match t.container with
  | .array => .array []
  | .single => match t.base with
    | .bool => .bool false
    | .byte | .int | .int64 => .int 0
    | .float => .float (.zero false)
    | .string | .text => .str ""
    | .name => .name ""
    | .enum n => .enum n ""
    | .struct _ => .struct ""
    | .object _ | .interface _ => .object Option.none
    | .exec | .wildcard => .none

def bool? (s : List Char) : Option DefaultValue :=
  let word := s.map Char.toLower
  if word = "true".toList then some (.bool true)
  else if word = "false".toList then some (.bool false)
  else Option.none

/-- An object is named by a component, or by nothing. -/
def object? (schema : Schema) (s : String) : Option DefaultValue :=
  if s = "" ∨ s = "None" then some (.object Option.none)
  else (schema.component? s).map fun c => .object (some c.name)

/-- Reads the text of a single value, which has no blanks around it. -/
def single? (schema : Schema) (base : BaseType) (s : List Char) : Option DefaultValue :=
  match base with
  | .bool => bool? s
  | .byte => (byte? s).map .int
  | .int => (int32? s).map .int
  | .int64 => (int64? s).map .int
  | .float => (Decimal.double? s).map .float
  | .string | .text => some (.str (String.ofList s))
  | .name => some (.name (String.ofList s))
  | .enum n => if isIdentifier s then some (.enum n (String.ofList s)) else Option.none
  | .struct _ => some (.struct (String.ofList s))
  | .object _ | .interface _ => object? schema (String.ofList s)
  | .exec | .wildcard => Option.none

/-- What stands between parentheses. -/
def inside? : List Char → Option (List Char)
  | '(' :: rest => if rest.getLast? = some ')' then some (trim rest.dropLast) else Option.none
  | _ => Option.none

/-- Reads a default text as a value of a type. An array stands in parentheses with commas between its
elements. -/
def ofText? (schema : Schema) (t : PinType) (text : String) : Option DefaultValue :=
  let s := trim text.toList
  match t.container with
  | .single => single? schema t.base s
  | .array => match inside? s with
    | Option.none => Option.none
    | some [] => some (.array [])
    | some inner => ((splitAt ',' inner).mapM fun item => single? schema t.base (trim item)).map .array

/-- Doubles in a listing: four places after the point and sixteen digits before it. -/
def style : Decimal.Style := ⟨-4, 16, false, .up⟩

def doubleText (x : Binary64) : String :=
  match x.meaning with
  | .nan => "NaN"
  | .infinite negative => if negative then "-inf" else "inf"
  | .finite negative m q =>
      let (d, e) := Decimal.shortest style.tie m q
      style.write negative d e

mutual

/-- The value as a listing shows it. -/
def text : DefaultValue → String
  | .bool b => if b then "true" else "false"
  | .int n => toString n
  | .float x => doubleText x
  | .str s => quoted s
  | .name s => s
  | .enum n v => n ++ "::" ++ v
  | .struct s => "(" ++ s ++ ")"
  | .object (some c) => c
  | .object Option.none => "None"
  | .array items => "(" ++ ", ".intercalate (texts items) ++ ")"
  | .none => "None"

def texts : List DefaultValue → List String
  | [] => []
  | v :: rest => text v :: texts rest

end

end DefaultValue

end VisualScript
