namespace VisualScript.Text

def digit? (c : Char) : Option Nat :=
  if '0' ≤ c ∧ c ≤ '9' then some (c.toNat - '0'.toNat) else none

def hexDigit? (c : Char) : Option Nat :=
  if '0' ≤ c ∧ c ≤ '9' then some (c.toNat - '0'.toNat)
  else if 'a' ≤ c ∧ c ≤ 'f' then some (c.toNat - 'a'.toNat + 10)
  else if 'A' ≤ c ∧ c ≤ 'F' then some (c.toNat - 'A'.toNat + 10)
  else none

/-- The value of a list of digits, most significant first. -/
def valueOf (base : Nat) (digits : List Nat) : Nat := digits.foldl (fun n d => n * base + d) 0

/-- Splits off the digits in front. -/
def digitRun (s : List Char) : List Char × List Char :=
  (s.takeWhile Char.isDigit, s.dropWhile Char.isDigit)

def digitsValue (s : List Char) : Nat := valueOf 10 (s.filterMap digit?)

/-- A non-empty string of digits. -/
def natural? (base : Nat) (digit? : Char → Option Nat) (s : List Char) : Option Nat :=
  if s.isEmpty then none else (s.mapM digit?).map (valueOf base)

/-- A natural number with an optional plus sign. -/
def unsigned? (base : Nat) (digit? : Char → Option Nat) : List Char → Option Nat
  | '+' :: rest => natural? base digit? rest
  | s => natural? base digit? s

/-- An integer with an optional sign. -/
def signed? : List Char → Option Int
  | '-' :: rest => (natural? 10 digit? rest).map fun n => -(n : Int)
  | '+' :: rest => (natural? 10 digit? rest).map Int.ofNat
  | s => (natural? 10 digit? s).map Int.ofNat

def within (lo hi n : Int) : Option Int := if lo ≤ n ∧ n ≤ hi then some n else none

def byte? (s : List Char) : Option Int := (unsigned? 10 digit? s).bind fun n => within 0 255 n

def int32? (s : List Char) : Option Int := (signed? s).bind (within (-2147483648) 2147483647)

def int64? (s : List Char) : Option Int :=
  (signed? s).bind (within (-9223372036854775808) 9223372036854775807)

def hex32? (s : List Char) : Option UInt32 :=
  (unsigned? 16 hexDigit? s).bind fun n => if n < 4294967296 then some (UInt32.ofNat n) else none

/-- Lower-case hexadecimal digits without leading zeros. -/
def hex (n : Nat) : String := String.ofList (Nat.toDigits 16 n)

/-- Whether the text is an ASCII letter or underscore followed by letters, digits and underscores. -/
def isIdentifier (s : List Char) : Bool :=
  match s with
  | [] => false
  | c :: _ => !c.isDigit && s.all fun d => d.isAlphanum || d == '_'

end VisualScript.Text
