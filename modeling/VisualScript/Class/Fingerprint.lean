import VisualScript.Digest
import VisualScript.Format.Class

namespace VisualScript.Fingerprint

def utf8 (s : String) : List UInt8 := s.toUTF8.toList

def jsonBytes (j : Json) : List UInt8 := utf8 j.compact

/-- The hash of a value by its interchange form. -/
def ofJson (j : Json) : String := Digest.ofBytes (jsonBytes j)

def ofSignature (s : Signature) : String := ofJson s.toJson

/-- A member as other units see it. -/
def memberJson (m : MemberSlot) : Json := .array [.str m.name, m.type.toJson]

/-- All that other units can see of a class. Members of the persistent frame are left out, so both
modes of compilation agree. -/
def skeletonBytes (l : ClassLayout) : List UInt8 :=
  let visible := l.members.values.filter fun m => m.origin ≠ .persistentFrame
  utf8 l.name ++ [0] ++ utf8 (l.parent.getD "") ++ jsonBytes (.list .str l.interfaces) ++
    visible.flatMap (fun m => jsonBytes (memberJson m)) ++
    l.functions.values.flatMap fun s => jsonBytes s.toJson

def ofSkeleton (l : ClassLayout) : String := Digest.ofBytes (skeletonBytes l)

/-- The code of a function with the storage of its terms. -/
def functionBytes (b : Body) (s : SymbolTable) : List UInt8 :=
  jsonBytes (.list Statement.toJson b.statements) ++ jsonBytes s.toJson

def ofFunction (b : Body) (s : SymbolTable) : String := Digest.ofBytes (functionBytes b s)

end VisualScript.Fingerprint
