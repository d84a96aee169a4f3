import VisualScript.Json.Value

namespace VisualScript.Json

def hexDigit (n : Nat) : Char := Nat.digitChar n

/-- One character between the quotes of a string. -/
def escape (c : Char) : List Char :=
  if c = '"' then ['\\', '"']
  else if c = '\\' then ['\\', '\\']
  else if c = '\n' then ['\\', 'n']
  else if c = '\r' then ['\\', 'r']
  else if c = '\t' then ['\\', 't']
  else if c.toNat = 8 then ['\\', 'b']
  else if c.toNat = 12 then ['\\', 'f']
  else if c.toNat < 32 then ['\\', 'u', '0', '0', hexDigit (c.toNat / 16), hexDigit (c.toNat % 16)]
  else [c]

def quote (s : String) : List Char := '"' :: (s.toList.flatMap escape ++ ['"'])

def numberText : JsonNumber → String
  | .integer n => toString n
  | .real negative digits exponent => JsonNumber.style.write negative digits exponent

mutual

/-- The text without any white space. -/
def compactChars : Json → List Char
  | .null => "null".toList
  | .bool b => (if b then "true" else "false").toList
  | .number n => (numberText n).toList
  | .string s => quote s
  | .broken => "null".toList
  | .array items => '[' :: (compactItems items ++ [']'])
  | .record fields => '{' :: (compactFields fields ++ ['}'])

def compactItems : List Json → List Char
  | [] => []
  | [j] => compactChars j
  | j :: k :: rest => compactChars j ++ ',' :: compactItems (k :: rest)

def compactFields : Fields → List Char
  | [] => []
  | [(name, j)] => quote name.text ++ ':' :: compactChars j
  | (name, j) :: f :: rest => quote name.text ++ ':' ::
      (compactChars j ++ ',' :: compactFields (f :: rest))

end

def compact (j : Json) : String := String.ofList (compactChars j)

def newline (depth : Nat) : List Char := '\n' :: List.replicate (2 * depth) ' '

mutual

/-- The text with one item or field a line, two spaces a level. -/
def prettyChars (depth : Nat) : Json → List Char
  | .array [] => ['[', ']']
  | .array (j :: rest) => '[' :: (prettyItems (depth + 1) (j :: rest) ++ newline depth ++ [']'])
  | .record [] => ['{', '}']
  | .record (f :: rest) => '{' :: (prettyFields (depth + 1) (f :: rest) ++ newline depth ++ ['}'])
  | .null => "null".toList
  | .bool b => (if b then "true" else "false").toList
  | .number n => (numberText n).toList
  | .string s => quote s
  | .broken => "null".toList

def prettyItems (depth : Nat) : List Json → List Char
  | [] => []
  | [j] => newline depth ++ prettyChars depth j
  | j :: k :: rest => newline depth ++ prettyChars depth j ++ ',' :: prettyItems depth (k :: rest)

def prettyFields (depth : Nat) : Fields → List Char
  | [] => []
  | [(name, j)] => newline depth ++ quote name.text ++ ':' :: ' ' :: prettyChars depth j
  | (name, j) :: f :: rest =>
      newline depth ++ quote name.text ++ ':' :: ' ' ::
        (prettyChars depth j ++ ',' :: prettyFields depth (f :: rest))

end

def pretty (j : Json) : String := String.ofList (prettyChars 0 j)

end VisualScript.Json
