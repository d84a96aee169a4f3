import VisualScript.Decimal.Shortest

namespace VisualScript

/-- A number as it stands in a text. A literal with a point, an exponent or a negative zero is real
and stands for `digits * 10 ^ exponent`. -/
inductive JsonNumber where
  | integer (n : Int)
  | real (negative : Bool) (digits : Nat) (exponent : Int)
deriving DecidableEq

/-- The name of a field, and whether its literal has an escape. -/
structure JsonName where
  text : String
  escaped : Bool := false
deriving DecidableEq

/-- A value of the interchange format. Records keep the order and the repetition of their fields.
`broken` is a text that is well formed but names no value: one with half of a surrogate pair. -/
inductive Json where
  | null
  | bool (b : Bool)
  | number (n : JsonNumber)
  | string (s : String)
  | broken
  | array (items : List Json)
  | record (fields : List (JsonName × Json))

namespace JsonNumber

/-- Drops digits from the end until the rest fits in 64 bits. -/
def fit (digits : Nat) (exponent : Int) : Nat × Int :=
  if 18446744073709551615 < digits then fit (digits / 10) (exponent + 1) else (digits, exponent)
termination_by digits
decreasing_by omega

/-- The product of a finite magnitude and a power of ten that is itself a double. -/
def timesPower (x : Binary64) (k : Nat) : Binary64 :=
  match x.meaning, (Binary64.ofDecimal false 1 k).meaning with
  | .finite _ m q, .finite _ m' q' =>
      let r := Binary64.ratio (m * m') (q + q')
      .ofRatio false r.1 r.2
  | _, _ => x

def overPower (x : Binary64) (k : Nat) : Binary64 :=
  match x.meaning, (Binary64.ofDecimal false 1 k).meaning with
  | .finite _ m q, .finite _ m' q' =>
      let r := Binary64.ratio m (q - q')
      .ofRatio false r.1 (r.2 * m')
  | _, _ => x

/-- The magnitude of `digits * 10 ^ exponent`: the leading 64 bits of the digits, then one rounded
multiplication or division by each power of ten that is needed. -/
def magnitude? (digits : Nat) (exponent : Int) : Option Binary64 :=
  let (s, e) := fit digits exponent
  let x := Binary64.ofRatio false s 1
  if s = 0 then some x
  else if 308 < e then none
  else if 0 ≤ e then
    let r := timesPower x e.toNat
    if r = .infinity false then none else some r
  else if -308 ≤ e then some (overPower x (-e).toNat)
  else if -616 ≤ e then some (overPower (overPower x 308) (-e - 308).toNat)
  else some (.zero false)

/-- The double a number is read as, or `none` where its magnitude is beyond all doubles. -/
def toBinary64? : JsonNumber → Option Binary64
  | .integer n => (magnitude? n.natAbs 0).map fun x => .ofMagnitude (n < 0) x.bits.toNat
  | .real negative digits exponent =>
      (magnitude? digits exponent).map fun x => .ofMagnitude negative x.bits.toNat

/-- Reals have at most five zeros after the point and sixteen digits before it, and a positive
exponent has its sign. -/
def style : Decimal.Style := ⟨-5, 16, true, .even⟩

end JsonNumber

namespace Json

abbrev Fields := List (JsonName × Json)

/-- The value of a field; of several with one name, that of the last. -/
def field? (name : String) : Json → Option Json
  | .record fields => (fields.reverse.find? fun f => f.1.text = name).map Prod.snd
  | _ => none

/-- A record whose names are written without escapes. -/
def object (fields : List (String × Json)) : Json := .record (fields.map fun f => (⟨f.1, false⟩, f.2))

def str (s : String) : Json := .string s

def nat (n : Nat) : Json := .number (.integer n)

def int (n : Int) : Json := .number (.integer n)

/-- A double by its fewest digits; what is not finite has no number and becomes null. -/
def double (x : Binary64) : Json :=
  match x.meaning with
  | .finite negative m q =>
      let (d, e) := Decimal.shortest JsonNumber.style.tie m q
      .number (.real negative d e)
  | _ => .null

def option {α : Type} (encode : α → Json) : Option α → Json
  | none => .null
  | some a => encode a

def list {α : Type} (encode : α → Json) (l : List α) : Json := .array (l.map encode)

/-- A case of a closed family together with its payload. -/
def tagged (tag : String) (payload : Json) : Json := .object [(tag, payload)]

end Json

end VisualScript
