import VisualScript.Decimal.Binary64

namespace VisualScript.Decimal

/-- Which of two equally near decimals is taken. -/
inductive Tie where
  | up
  | even
deriving DecidableEq

/-- The exponent of the first digit of `num / den`. -/
def leadingExponent (num den : Nat) : Int :=
  if den ≤ num then ((Nat.toDigits 10 (num / den)).length : Int) - 1
  else -(((List.range 400).find? fun s => den ≤ num * Nat.pow 10 s).getD 400 : Nat)

/-- The reals between `lo` and `hi`, which are counted in units of `num / den`. -/
structure Interval where
  lo : Nat
  mid : Nat
  hi : Nat
  num : Nat
  den : Nat
  closed : Bool

/-- The reals that round to `m * 2 ^ q`, in quarters of the last place. -/
def roundingInterval (m : Nat) (q : Int) : Interval :=
  let unit := Binary64.ratio 1 (q - 2)
  { lo := if m = Nat.pow 2 52 ∧ q ≠ -1074 then 4 * m - 1 else 4 * m - 2
    mid := 4 * m
    hi := 4 * m + 2
    num := unit.1
    den := unit.2
    closed := m % 2 = 0 }

/-- Whether the decimal `t * c / d` lies in the interval. -/
def Interval.holds (i : Interval) (t c d : Nat) : Bool :=
  let x := t * c * i.den
  let lo := i.lo * i.num * d
  let hi := i.hi * i.num * d
  if i.closed then lo ≤ x && x ≤ hi else lo < x && x < hi

/-- The nearer of the two neighbours of the middle on the grid of `c / d`, as far as they lie in the
interval. -/
def Interval.nearest? (tie : Tie) (i : Interval) (c d : Nat) : Option Nat :=
  let value := i.mid * i.num * d
  let unit := c * i.den
  let t := value / unit
  let below := value - t * unit
  let above := unit - below
  match i.holds t c d, i.holds (t + 1) c d with
  | true, false => some t
  | false, true => some (t + 1)
  | false, false => none
  | true, true =>
      if below < above then some t
      else if above < below then some (t + 1)
      else match tie with
        | .up => some (t + 1)
        | .even => some (t + t % 2)

/-- Moves trailing zeros of the digits into the exponent. -/
def normalize (digits : Nat) (exponent : Int) : Nat × Int :=
  if digits ≠ 0 ∧ digits % 10 = 0 then normalize (digits / 10) (exponent + 1) else (digits, exponent)
termination_by digits
decreasing_by omega

/-- The fewest digits that read back as `m * 2 ^ q`, nearest to it among those: the pair `(d, e)`
stands for `d * 10 ^ e`. Seventeen digits always do. -/
def shortest (tie : Tie) (m : Nat) (q : Int) : Nat × Int :=
  if m = 0 then (0, 0)
  else
    let i := roundingInterval m q
    let first := leadingExponent (i.mid * i.num) i.den
    let found := (List.range 17).findSome? fun (n : Nat) =>
      let k := first - n
      let c := if 0 ≤ k then Nat.pow 10 k.toNat else 1
      let d := if 0 ≤ k then 1 else Nat.pow 10 (-k).toNat
      (i.nearest? tie c d).map fun t => (t, k)
    match found with
    | some (t, k) => normalize t k
    | none => (0, 0)

/-- How a decimal is written: positional while the exponent of its first digit is at least
`positionalFrom` and below `positionalTo`, otherwise with an exponent. -/
structure Style where
  positionalFrom : Int
  positionalTo : Int
  plusSign : Bool
  tie : Tie

def zeros (n : Nat) : String := String.ofList (List.replicate n '0')

def positional (digits : String) (exponent : Int) : String :=
  if 0 ≤ exponent then digits ++ zeros exponent.toNat ++ ".0"
  else
    let places := (-exponent).toNat
    if places < digits.length then
      String.ofList (digits.toList.take (digits.length - places)) ++ "." ++
        String.ofList (digits.toList.drop (digits.length - places))
    else "0." ++ zeros (places - digits.length) ++ digits

def scientific (plusSign : Bool) (digits : String) (leading : Int) : String :=
  let mantissa := match digits.toList with
    | [] => ""
    | [c] => c.toString
    | c :: rest => c.toString ++ "." ++ String.ofList rest
  mantissa ++ "e" ++ (if plusSign && 0 ≤ leading then "+" else "") ++ toString leading

/-- The text of `digits * 10 ^ exponent`. -/
def Style.write (style : Style) (negative : Bool) (digits : Nat) (exponent : Int) : String :=
  let text := toString digits
  let leading := exponent + text.length - 1
  (if negative then "-" else "") ++
    if digits = 0 then "0.0"
    else if style.positionalFrom ≤ leading ∧ leading < style.positionalTo then positional text exponent
    else scientific style.plusSign text leading

end VisualScript.Decimal
