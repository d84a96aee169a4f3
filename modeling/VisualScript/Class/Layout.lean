import VisualScript.Class.Default
import VisualScript.Class.Symbols

namespace VisualScript

inductive MemberOrigin where
  | field
  | component
  | persistentFrame
deriving DecidableEq

structure MemberSlot where
  name : String
  type : PinType
  origin : MemberOrigin
  default : Option String := none
deriving DecidableEq

/-- The part of a class that other units depend on. -/
structure ClassLayout where
  name : String
  parent : Option String := none
  interfaces : List String := []
  members : OrderedMap String MemberSlot := ∅
  functions : OrderedMap String Signature := ∅
  finalized : Bool := false

/-- The instance every other instance starts from. -/
structure DefaultObject where
  cls : String
  values : OrderedMap String DefaultValue := ∅

namespace ClassLayout

def slotOf (m : MemberDecl) : MemberSlot :=
  ⟨m.name, m.type, if m.isComponent then .component else .field, m.default⟩

/-- The declared members in schema order. -/
def ofSchema (u : CompilationUnit) (s : Schema) : ClassLayout :=
  { name := s.name
    parent := s.parent
    interfaces := u.interfaces.map InterfaceDecl.name
    members := OrderedMap.ofList (s.members.values.map fun m => (m.name, slotOf m)) }

def addFunction (l : ClassLayout) (f : Signature) : ClassLayout :=
  { l with functions := l.functions.insert f.name f }

/-- Appends promoted members; a name that is there already is left alone. -/
def addPromoted (l : ClassLayout) (promoted : List PromotedMember) : ClassLayout :=
  { l with
    members := promoted.foldl
      (fun members m => members.insertIfNew m.name ⟨m.name, m.type, .persistentFrame, m.default⟩)
        l.members }

/-- The default of a member: a component is itself, and a text that does not parse counts as zero. -/
def slotValue (s : Schema) (m : MemberSlot) : DefaultValue × List Issue :=
  if m.origin = .component then (.object (some m.name), [])
  else match m.default with
    | none => (.zero m.type, [])
    | some text => match DefaultValue.ofText? s m.type text with
      | some v => (v, [])
      | none => (.zero m.type, [.unparsableDefault m.name text m.type.display])

def defaultObject (l : ClassLayout) (s : Schema) : DefaultObject × List Issue :=
  ({ cls := l.name, values := OrderedMap.ofList (l.members.values.map
    fun m => (m.name, (slotValue s m).1)) },
    l.members.values.flatMap fun m => (slotValue s m).2)

end ClassLayout

end VisualScript
