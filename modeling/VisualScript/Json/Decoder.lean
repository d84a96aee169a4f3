import VisualScript.Json.Reader
import VisualScript.OrderedMap

namespace VisualScript

/-- Why a text does not describe a value of the wanted kind. After a fatal fault nothing can be said
about the text at all. -/
inductive DecodeError where
  | malformed
  | expected (what : String)
  | missing (field : String)
  | repeated (field : String)
  | unknown (name : String)
  | outOfRange (what : String)
  | tooDeep
  | fatal
deriving DecidableEq

def DecodeError.message : DecodeError → String
  | .malformed => "malformed text"
  | .expected what => "expected " ++ what
  | .missing field => "missing field '" ++ field ++ "'"
  | .repeated field => "repeated field '" ++ field ++ "'"
  | .unknown name => "unknown case '" ++ name ++ "'"
  | .outOfRange what => what ++ " out of range"
  | .tooDeep => "nested too deeply"
  | .fatal => "cannot be laid out"

/-- Makes a value from its interchange form. The number is the allowance of nested arrays and objects
that may still be entered; a field nobody asks for is not entered. -/
abbrev Decoder (α : Type) := Nat → Json → Except DecodeError α

namespace Decoder

variable {α β : Type}

/-- The nesting allowance of a whole text. -/
def nesting : Nat := 128

/-- The allowance inside an array or an object. -/
def enter (allowance : Nat) : Except DecodeError Nat :=
  if allowance ≤ 1 then .error .tooDeep else .ok (allowance - 1)

def map (f : α → β) (decode : Decoder α) : Decoder β := fun d j => (decode d j).map f

def bool : Decoder Bool
  | _, .bool b => .ok b
  | _, _ => .error (.expected "a boolean")

def string : Decoder String
  | _, .string s => .ok s
  | _, _ => .error (.expected "a string")

/-- An integer from `lo` to `hi`. -/
def integer (lo hi : Int) : Decoder Int
  | _, .number (.integer n) => if lo ≤ n ∧ n ≤ hi then .ok n else .error (.outOfRange "integer")
  | _, _ => .error (.expected "an integer")

def word16 : Decoder UInt16 := map (fun n => UInt16.ofNat n.toNat) (integer 0 65535)

/-- A number of 32 bits. -/
def word32 : Decoder Nat := map Int.toNat (integer 0 4294967295)

/-- A number of 64 bits. -/
def word64 : Decoder Nat := map Int.toNat (integer 0 18446744073709551615)

def int32 : Decoder Int := integer (-2147483648) 2147483647

def int64 : Decoder Int := integer (-9223372036854775808) 9223372036854775807

def double : Decoder Binary64
  | _, .number n => match n.toBinary64? with
      | some x => .ok x
      | none => .error (.outOfRange "number")
  | _, _ => .error (.expected "a number")

def option (decode : Decoder α) : Decoder (Option α)
  | _, .null => .ok none
  | d, j => (decode d j).map some

def list (decode : Decoder α) : Decoder (List α)
  | d, .array items => do
      let d ← enter d
      items.mapM (decode d)
  | _, _ => .error (.expected "an array")

/-- The items of an array of fixed length. -/
def tuple (n : Nat) : Decoder (Nat × List Json)
  | d, .array items => do
      let d ← enter d
      if items.length = n then .ok (d, items) else .error (.expected "an array of fixed length")
  | _, _ => .error (.expected "an array of fixed length")

def pair (first : Decoder α) (second : Decoder β) : Decoder (α × β) := fun d j => do
  match ← tuple 2 d j with
  | (d, [a, b]) => return (← first d a, ← second d b)
  | _ => .error (.expected "a pair")

/-- A map; under a repeated key the last value counts. -/
def orderedMap [DecidableEq β] (key? : JsonName → Option β) (decode : Decoder α) : Decoder (OrderedMap β α)
  | d, .record fields => do
      let d ← enter d
      let entries ← fields.mapM fun f => do
        match key? f.1 with
        | some k => return (k, ← decode d f.2)
        | none => .error (.unknown f.1.text)
      return OrderedMap.ofList entries
  | _, _ => .error (.expected "an object")

def key? (n : JsonName) : Option String := some n.text

/-- Decimal digits of a number of 32 bits, as they stand for it in a key. They are written plainly. -/
def key32? (n : JsonName) : Option Nat :=
  let cs := n.text.toList
  if n.escaped || (cs.length > 1 && cs.head? = some '0') then none
  else (Text.natural? 10 Text.digit? cs).filter (· < 4294967296)

/-- Reads a whole text. -/
def text (decode : Decoder α) (s : String) : Except DecodeError α :=
  match Json.read? s with
  | some j => decode nesting j
  | none => .error .malformed

end Decoder

/-- The fields of a structure, given by name or in order. -/
structure Record where
  byPosition : Bool
  allowance : Nat
  fields : List (String × Json)

namespace Record

variable {α : Type}

/-- The first name that occurs twice. -/
def repeated? : List String → Option String
  | [] => none
  | name :: rest => if name ∈ rest then some name else repeated? rest

/-- A structure with the given field names. Unknown names are passed over. -/
def decode (names : List String) : Decoder Record
  | d, .record fields => do
      let d ← Decoder.enter d
      let known := (fields.map fun f => (f.1.text, f.2)).filter fun f => f.1 ∈ names
      match repeated? (known.map Prod.fst) with
      | some name => .error (.repeated name)
      | none => .ok ⟨false, d, known⟩
  | d, .array items => do
      let d ← Decoder.enter d
      if items.length ≤ names.length then .ok ⟨true, d, names.zip items⟩
      else .error (.expected "fewer fields")
  | _, _ => .error (.expected "a structure")

def find? (r : Record) (name : String) : Option Json := (r.fields.find? fun f => f.1 = name).map Prod.snd

/-- Of several fields that are at fault, the one that stands first tells why. -/
def settle (r : Record) (outcomes : List (String × Except DecodeError Unit)) : Except DecodeError Unit :=
  r.fields.forM fun f => (outcomes.lookup f.1).getD (.ok ())

/-- A field that has to be there. -/
def get (r : Record) (name : String) (decode : Decoder α) : Except DecodeError α :=
  match r.find? name with
  | some j => decode r.allowance j
  | none => .error (.missing name)

/-- A field with a default. -/
def getD (r : Record) (name : String) (default : α) (decode : Decoder α) : Except DecodeError α :=
  match r.find? name with
  | some j => decode r.allowance j
  | none => .ok default

/-- A field that may be null, and may be left out where fields have names. -/
def get? (r : Record) (name : String) (decode : Decoder α) : Except DecodeError (Option α) :=
  match r.find? name with
  | some j => Decoder.option decode r.allowance j
  | none => if r.byPosition then .error (.missing name) else .ok none

/-- A field that may be null or left out. -/
def optional (r : Record) (name : String) (decode : Decoder α) : Except DecodeError (Option α) :=
  r.getD name none (Decoder.option decode)

end Record

/-- A case of a closed family: its tag, and its payload unless the tag stands alone. -/
structure Case where
  tag : String
  allowance : Nat
  payload : Option Json

namespace Case

variable {α : Type}

def decode : Decoder Case
  | d, .string tag => .ok ⟨tag, d, none⟩
  | d, .record [(tag, payload)] => do
      let d ← Decoder.enter d
      return ⟨tag.text, d, some payload⟩
  | _, _ => .error (.expected "a case")

/-- A case without payload. -/
def plain (c : Case) (a : α) : Except DecodeError α :=
  match c.payload with
  | none => .ok a
  | some .null => .ok a
  | some _ => .error (.expected "no payload")

def get (c : Case) (decode : Decoder α) : Except DecodeError α :=
  match c.payload with
  | some j => decode c.allowance j
  | none => .error (.expected "a payload")

/-- One of several plain cases. -/
def oneOf (cases : List (String × α)) : Decoder α := fun d j => do
  let c ← decode d j
  match cases.find? fun p => p.1 = c.tag with
  | some p => c.plain p.2
  | none => .error (.unknown c.tag)

end Case

end VisualScript
