import VisualScript.Json.Value
import VisualScript.Text.Integer

namespace VisualScript.Json

open Text

def isSpace (c : Char) : Bool := c = ' ' || c = '\n' || c = '\r' || c = '\t'

def skipSpace (s : List Char) : List Char := s.dropWhile isSpace

def hex4? (a b c d : Char) : Option Nat := ([a, b, c, d].mapM hexDigit?).map (valueOf 16)

/-- A code unit that is half of a pair. -/
def isHigh (n : Nat) : Bool := 0xd800 ≤ n && n < 0xdc00

def isLow (n : Nat) : Bool := 0xdc00 ≤ n && n < 0xe000

def simpleEscape? : Char → Option Char
  | '"' => some '"'
  | '\\' => some '\\'
  | '/' => some '/'
  | 'b' => some (Char.ofNat 8)
  | 'f' => some (Char.ofNat 12)
  | 'n' => some '\n'
  | 'r' => some '\r'
  | 't' => some '\t'
  | _ => none

/-- What a string literal says: its characters, or nothing if a surrogate stands alone. -/
abbrev Content := Option (List Char)

def Content.push (c : Char) (content : Content) : Content := content.map (c :: ·)

/-- One code unit of an escape. The first half of a pair waits for the second. -/
def unit (n : Nat) (pending : Option Nat) (rest : Content) : Content :=
  match pending with
  | some low =>
      if isHigh n then Content.push (Char.ofNat (0x10000 + (n - 0xd800) * 0x400 + (low - 0xdc00)))
        rest else none
  | none => if isHigh n || isLow n then none else Content.push (Char.ofNat n) rest

/-- The escape of the second half of a pair, at the front of the text. -/
def lowEscape? : List Char → Option Nat
  | '\\' :: 'u' :: a :: b :: c :: d :: _ => (hex4? a b c d).filter isLow
  | _ => none

/-- Scans a string literal after its opening quote, up to and with the closing one. -/
def stringRest : List Char → Option (Content × List Char)
  | [] => none
  | '"' :: rest => some (some [], rest)
  | '\\' :: 'u' :: a :: b :: c :: d :: rest =>
      match hex4? a b c d with
      | none => none
      | some n =>
          if isHigh n && (lowEscape? rest).isSome then
            match rest with
            | _ :: _ :: _ :: _ :: _ :: _ :: rest' =>
                (stringRest rest').map fun r => (unit n (lowEscape? rest) r.1, r.2)
            | _ => none
          else (stringRest rest).map fun r => (unit n none r.1, r.2)
  | '\\' :: c :: rest =>
      match simpleEscape? c with
      | none => none
      | some d => (stringRest rest).map fun r => (Content.push d r.1, r.2)
  | c :: rest =>
      if c = '\\' || c.toNat < 32 then none
      else (stringRest rest).map fun r => (Content.push c r.1, r.2)

/-- A non-empty run of digits without a superfluous zero in front. -/
def wholePart? (s : List Char) : Option (List Char × List Char) :=
  match digitRun s with
  | ([], _) => none
  | ('0' :: _ :: _, _) => none
  | r => some r

/-- An optional point with digits after it. -/
def fraction? : List Char → Option (List Char × List Char)
  | '.' :: rest => match digitRun rest with
      | ([], _) => none
      | r => some r
  | s => some ([], s)

def exponentDigits? (sign : Int) (s : List Char) : Option (Int × List Char) :=
  match digitRun s with
  | ([], _) => none
  | (digits, rest) => some (sign * digitsValue digits, rest)

/-- An optional exponent. -/
def exponentPart? : List Char → Option (Option Int × List Char)
  | [] => some (none, [])
  | c :: rest =>
      if c = 'e' ∨ c = 'E' then
        let r := match rest with
          | '+' :: rest => exponentDigits? 1 rest
          | '-' :: rest => exponentDigits? (-1) rest
          | rest => exponentDigits? 1 rest
        r.map fun p => (some p.1, p.2)
      else some (none, c :: rest)

/-- The number a literal stands for. A negative zero is no integer. Of a real only the first digits
count: those of the whole part that fit in 64 bits, and behind these directly those of the fraction. -/
def numberOf (negative : Bool) (whole fraction : List Char) (exponent : Option Int) : JsonNumber :=
  match fraction, exponent with
  | [], none =>
      let n := digitsValue whole
      if negative && n = 0 then .real true 0 0 else .integer (if negative then -(n : Int) else n)
  | _, _ =>
      let (n, dropped) := JsonNumber.fit (digitsValue whole) 0
      .real negative (n * Nat.pow 10 fraction.length + digitsValue fraction)
        (exponent.getD 0 + dropped - fraction.length)

def unsignedNumber? (negative : Bool) (s : List Char) : Option (JsonNumber × List Char) := do
  let (whole, s) ← wholePart? s
  let (fraction, s) ← fraction? s
  let (exponent, s) ← exponentPart? s
  return (numberOf negative whole fraction exponent, s)

def number? : List Char → Option (JsonNumber × List Char)
  | '-' :: rest => unsignedNumber? true rest
  | s => unsignedNumber? false s

/-- Takes a word off the front of the text. -/
def word? (w : List Char) (j : Json) (s : List Char) : Option (Json × List Char) :=
  if w.isPrefixOf s then some (j, s.drop w.length) else none

/-- The name of a field as it is read: whether it has an escape, and what it says. -/
structure NameLiteral where
  escaped : Bool
  content : Content

/-- Takes the name of a field off the text behind its opening quote. A name with an escape has one
before any other quote. -/
def name? (s : List Char) : Option (NameLiteral × List Char) :=
  (stringRest s).map fun r => (⟨(s.takeWhile fun c => c ≠ '"').contains '\\', r.1⟩, r.2)

/-- Fields make a record only if every name is one. -/
def recordOf (fields : List (NameLiteral × Json)) : Json :=
  match fields.mapM fun f => f.1.content.map fun name => (⟨String.ofList name, f.1.escaped⟩, f.2) with
  | some fields => .record fields
  | none => .broken

mutual

/-- Reads one value; `fuel` bounds the number of nested calls. -/
def value? : Nat → List Char → Option (Json × List Char)
  | 0, _ => none
  | fuel + 1, s =>
      match skipSpace s with
      | '"' :: rest => (stringRest rest).map fun r =>
          (match r.1 with
            | some cs => .string (String.ofList cs)
            | none => .broken, r.2)
      | '[' :: rest =>
          match skipSpace rest with
          | ']' :: rest => some (.array [], rest)
          | rest => (items? fuel rest).map fun r => (.array r.1, r.2)
      | '{' :: rest =>
          match skipSpace rest with
          | '}' :: rest => some (.record [], rest)
          | rest => (fields? fuel rest).map fun r => (recordOf r.1, r.2)
      | 'n' :: rest => word? "ull".toList .null rest
      | 't' :: rest => word? "rue".toList (.bool true) rest
      | 'f' :: rest => word? "alse".toList (.bool false) rest
      | s => (number? s).map fun r => (.number r.1, r.2)

/-- The items of an array, with its closing bracket. -/
def items? : Nat → List Char → Option (List Json × List Char)
  | 0, _ => none
  | fuel + 1, s =>
      match value? fuel s with
      | none => none
      | some (j, rest) =>
          match skipSpace rest with
          | ',' :: rest => (items? fuel rest).map fun r => (j :: r.1, r.2)
          | ']' :: rest => some ([j], rest)
          | _ => none

/-- The fields of an object, with its closing brace. -/
def fields? : Nat → List Char → Option (List (NameLiteral × Json) × List Char)
  | 0, _ => none
  | fuel + 1, s =>
      match skipSpace s with
      | '"' :: rest =>
          match name? rest with
          | none => none
          | some (name, rest) =>
              match skipSpace rest with
              | ':' :: rest =>
                  match value? fuel rest with
                  | none => none
                  | some (j, rest) =>
                      match skipSpace rest with
                      | ',' :: rest => (fields? fuel rest).map fun r => ((name, j) :: r.1, r.2)
                      | '}' :: rest => some ([(name, j)], rest)
                      | _ => none
              | _ => none
      | _ => none

end

/-- Reads a text that holds one value and nothing else. -/
def read? (s : String) : Option Json :=
  match value? (s.length + 1) s.toList with
  | some (j, rest) => if (skipSpace rest).isEmpty then some j else none
  | none => none

end VisualScript.Json
