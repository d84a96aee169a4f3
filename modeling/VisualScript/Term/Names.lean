import VisualScript.OrderedMap

namespace VisualScript

/-- The names in use, each with the last number that was tried after it. -/
abbrev NameTable := OrderedMap String Nat

namespace NameTable

/-- Letters, digits and underscores stay, all else becomes an underscore; the result does not start
with a digit and is not empty. -/
def sanitize (base : String) : String :=
  let cs := base.toList.map fun c => if c.isAlphanum || c == '_' then c else '_'
  match cs with
  | [] => "Term"
  | c :: _ => String.ofList (if c.isDigit then '_' :: cs else cs)

def numbered (base : String) (n : Nat) : String := base ++ "_" ++ toString n

/-- While the candidate is taken, counts up its number and tries the base with that number. -/
def search (base : String) : Nat → NameTable → String → NameTable × String
  | 0, used, candidate => (used, candidate)
  | fuel + 1, used, candidate =>
      match used.get? candidate with
      | none => (used, candidate)
      | some n => search base fuel (used.insert candidate (n + 1)) (numbered base (n + 1))

/-- Enough tries: each name in use is met at most once for every name it may lead to, and once more. -/
def tries (used : NameTable) : Nat := used.size * (used.size + 1) + 1

/-- A name that was not in use before and is now. -/
def fresh (used : NameTable) (declared : String) : String × NameTable :=
  let base := sanitize declared
  let (used, name) := search base used.tries used base
  (name, used.insert name 0)

/-- Takes a name as it is, if it is free. -/
def reserve? (used : NameTable) (name : String) : Option NameTable :=
  if used.contains name then none else some (used.insert name 0)

end NameTable

/-- The class-scope slot of a parameter of an event. -/
def slotName (event param : String) : String :=
  NameTable.sanitize event ++ "_" ++ NameTable.sanitize param

end VisualScript
