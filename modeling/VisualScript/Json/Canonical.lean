import VisualScript.Json.Value

namespace VisualScript

namespace JsonNumber

/-- An integer of at most 64 bits stays as it is; any other number is rounded to a double. -/
def canonical (n : JsonNumber) : Json :=
  match n with
  | .integer i =>
      if -9223372036854775808 ≤ i ∧ i ≤ 18446744073709551615 then .number n
      else (n.toBinary64?.map Json.double).getD (.number n)
  | .real .. => (n.toBinary64?.map Json.double).getD (.number n)

end JsonNumber

namespace Json

/-- Puts a field in its place by name; of equal names the later one counts. -/
def insertField (name : String) (j : Json) : Fields → Fields
  | [] => [(⟨name, false⟩, j)]
  | g :: rest =>
      if name < g.1.text then (⟨name, false⟩, j) :: g :: rest
      else if name = g.1.text then (⟨name, false⟩, j) :: rest
      else g :: insertField name j rest

mutual

/-- The form in which equal values have equal texts: fields by name, each name once, doubles by their
shortest digits. -/
def canonical : Json → Json
  | null => null
  | bool b => bool b
  | number n => n.canonical
  | string s => string s
  | broken => broken
  | array items => array (canonicalItems items)
  | record fields => record (canonicalFields [] fields)

def canonicalItems : List Json → List Json
  | [] => []
  | j :: rest => canonical j :: canonicalItems rest

/-- Takes in fields behind those already in place. -/
def canonicalFields : Fields → Fields → Fields
  | done, [] => done
  | done, (name, j) :: rest => canonicalFields (insertField name.text (canonical j) done) rest

end

end Json

end VisualScript
