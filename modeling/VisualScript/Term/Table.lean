import VisualScript.Graph.Node
import VisualScript.Term.Names

namespace VisualScript

/-- The place of a term in its table. An id has 32 bits, so a table holds up to 4294967296 terms. -/
abbrev TermId := Nat

inductive TermKind where
  | parameter
  | output
  | local
  | literal
  | member
  | persistentFrame
deriving DecidableEq

namespace TermKind

/-- Whether the value lives in the class and not in the function. -/
def isClassScope : TermKind → Bool
  | .member => true
  | .persistentFrame => true
  | _ => false

def name : TermKind → String
  | .parameter => "Parameter"
  | .output => "Output"
  | .local => "Local"
  | .literal => "Literal"
  | .member => "Member"
  | .persistentFrame => "PersistentFrame"

end TermKind

/-- A value a function works with. -/
structure Term where
  id : TermId
  name : String
  declared : String
  type : PinType
  kind : TermKind
  literal : Option String := none
deriving DecidableEq

/-- Two class-scope slots of different kinds under one name. -/
structure NameClash where
  name : String
  heldBy : TermKind
deriving DecidableEq

def NameClash.message (c : NameClash) : String :=
  "class-scope name '" ++ c.name ++ "' is already held by a " ++ c.heldBy.name ++ " term"

/-- The terms of a function, and the terms its output ports are bound to. -/
structure TermTable where
  terms : List Term := []
  nets : OrderedMap PortRef TermId := ∅
  declared : OrderedMap (TermKind × String) TermId := ∅
  initial : OrderedMap TermId String := ∅
  names : NameTable := ∅
  literalCount : Nat := 0

namespace TermTable

def push (t : TermTable) (kind : TermKind) (name declared : String) (type : PinType)
    (literal : Option String := none) : TermId × TermTable :=
  (t.terms.length, { t with terms := t.terms ++ [⟨t.terms.length, name, declared, type, kind, literal⟩] })

/-- Adds a term under a fresh name. The first term declared under a kind and a name is the one found. -/
def add (t : TermTable) (kind : TermKind) (declared : String) (type : PinType) : TermId × TermTable :=
  let (name, names) := t.names.fresh declared
  let (id, t) := { t with names }.push kind name declared type
  (id, { t with declared := t.declared.insertIfNew (kind, declared) id })

def addLocal (t : TermTable) (declared : String) (type : PinType) (initial : Option String) :
    TermId × TermTable :=
  let (id, t) := t.add .local declared type
  match initial with
  | some value => (id, { t with initial := t.initial.insert id value })
  | none => (id, t)

def addLiteral (t : TermTable) (type : PinType) (value : String) : TermId × TermTable :=
  let declared := "Literal_" ++ toString t.literalCount
  let (name, names) := t.names.fresh declared
  { t with names, literalCount := t.literalCount + 1 }.push .literal name declared type (some value)

/-- Gives a term another name. -/
def rename (t : TermTable) (id : TermId) (name : String) : TermTable :=
  { t with terms := t.terms.modify id fun term => { term with name } }

/-- The term of a class-scope slot, made when it is first asked for. Its name is never altered: a
term of the function that holds the name gets another one. -/
def member (t : TermTable) (kind : TermKind) (name : String) (type : PinType) :
    Except NameClash (TermId × TermTable) :=
  match t.declared.get? (kind, name) with
  | some id => .ok (id, t)
  | none =>
      let insert (t : TermTable) : TermId × TermTable :=
        let (id, t) := t.push kind name name type
        (id, { t with declared := t.declared.insert (kind, name) id })
      match t.names.reserve? name with
      | some names => .ok (insert { t with names })
      | none =>
          match t.terms.find? fun term => term.name = name with
          | none => .ok (insert t)
          | some holder =>
              if holder.kind.isClassScope then .error ⟨name, holder.kind⟩
              else
                let (other, names) := t.names.fresh name
                .ok (insert ({ t with names }.rename holder.id other))

def find? (t : TermTable) (kind : TermKind) (declared : String) : Option TermId :=
  t.declared.get? (kind, declared)

def get? (t : TermTable) (id : TermId) : Option Term := t.terms[id]?

def bind (t : TermTable) (port : PortRef) (id : TermId) : TermTable :=
  { t with nets := t.nets.insert port id }

def net? (t : TermTable) (port : PortRef) : Option TermId := t.nets.get? port

def initial? (t : TermTable) (id : TermId) : Option String := t.initial.get? id

def ofKind (t : TermTable) (kind : TermKind) : List Term := t.terms.filter fun term => term.kind = kind

end TermTable

end VisualScript
