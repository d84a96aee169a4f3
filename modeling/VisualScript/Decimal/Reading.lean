import VisualScript.Decimal.Binary64
import VisualScript.Text.Integer

namespace VisualScript.Decimal

open Text

/-- A decimal literal: `digits * 10 ^ exponent`. -/
structure Literal where
  digits : Nat
  exponent : Int

/-- An optional exponent, up to the end of the text. -/
def exponent? : List Char → Option Int
  | [] => some 0
  | c :: rest => if c = 'e' ∨ c = 'E' then signed? rest else none

/-- Digits with an optional point among them and an optional exponent. -/
def literal? (s : List Char) : Option Literal :=
  let (whole, rest) := digitRun s
  let (fraction, rest) := match rest with
    | '.' :: rest => digitRun rest
    | _ => ([], rest)
  if whole.isEmpty && fraction.isEmpty then none
  else (exponent? rest).map fun e => ⟨digitsValue (whole ++ fraction), e - fraction.length⟩

def unsignedDouble? (negative : Bool) (s : List Char) : Option Binary64 :=
  let word := s.map Char.toLower
  if word = "inf".toList ∨ word = "infinity".toList then some (.infinity negative)
  else if word = "nan".toList then some .nan
  else (literal? s).map fun l => .ofDecimal negative l.digits l.exponent

/-- Reads a double: an optional sign, then a decimal literal or the name of a number that has none. -/
def double? : List Char → Option Binary64
  | '-' :: rest => unsignedDouble? true rest
  | '+' :: rest => unsignedDouble? false rest
  | s => unsignedDouble? false s

end VisualScript.Decimal
