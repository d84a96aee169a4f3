import VisualScript.Signature.Basic
import VisualScript.Term.Table

namespace VisualScript

/-- Where a term lives at run time. -/
inductive Storage where
  | parameter (slot : Nat)
  | local (slot : Nat)
  | member (name : String)
  | literal (text : String)
deriving DecidableEq

structure Symbol where
  term : TermId
  name : String
  type : PinType
  storage : Storage
deriving DecidableEq

/-- The storage of the terms of a function. -/
structure SymbolTable where
  symbols : OrderedMap TermId Symbol := ∅
  parameters : List TermId := []
  locals : List TermId := []
  defaults : OrderedMap String String := ∅

/-- A term that lives in the class: an event parameter or a local of the event graph. -/
structure PromotedMember where
  name : String
  type : PinType
  default : Option String := none
deriving DecidableEq

/-- The signature a function declares by its terms: inputs, then outputs. -/
def TermTable.signature (t : TermTable) (name : String) (flags : Flags) : Signature :=
  { name
    params := (t.ofKind .parameter).map (fun p => ⟨p.declared, p.type, .input⟩) ++
      (t.ofKind .output).map fun p => ⟨p.declared, p.type, .output⟩
    flags }

namespace SymbolTable

def parameterNames (s : SymbolTable) : List String :=
  s.parameters.filterMap fun id => (s.symbols.get? id).map Symbol.name

def termKind : ParamDirection → TermKind
  | .input => .parameter
  | .output => .output

/-- The parameter terms in the order of the signature, then those it does not name. -/
def parameterTerms (t : TermTable) (signature : Signature) : List TermId :=
  let named := signature.params.filterMap fun p => t.find? (termKind p.direction) p.name
  let isParameter (term : Term) : Bool := term.kind = .parameter || term.kind = .output
  named ++ ((t.terms.filter fun term => isParameter term && term.id ∉ named).map Term.id)

def addParameter (t : TermTable) (s : SymbolTable) (p : TermId × Nat) : SymbolTable :=
  match t.get? p.1 with
  | none => s
  | some term => { s with symbols := s.symbols.insert p.1 ⟨p.1, term.name, term.type, .parameter p.2⟩ }

def frameName (name : String) : String := "Frame_" ++ name

/-- The class member a term asks for. -/
def promotion? (t : TermTable) (promoteLocals : Bool) (term : Term) : Option PromotedMember :=
  match term.kind with
  | .local => if promoteLocals then some ⟨frameName term.name, term.type, t.initial? term.id⟩ else none
  | .persistentFrame => some ⟨term.name, term.type, none⟩
  | _ => none

/-- Members asked for under the same name are one; the first request counts. -/
def promote (members : List PromotedMember) (m : PromotedMember) : List PromotedMember :=
  if members.any fun n => n.name = m.name then members else members ++ [m]

def promotedMembers (t : TermTable) (promoteLocals : Bool) : List PromotedMember :=
  (t.terms.filterMap (promotion? t promoteLocals)).foldl promote []

def addSymbol (s : SymbolTable) (term : Term) (name : String) (storage : Storage) : SymbolTable :=
  { s with symbols := s.symbols.insert term.id ⟨term.id, name, term.type, storage⟩ }

/-- Gives a term that is no parameter its storage. -/
def addTerm (t : TermTable) (promoteLocals : Bool) (s : SymbolTable) (term : Term) : SymbolTable :=
  match term.kind with
  | .parameter => s
  | .output => s
  | .local =>
      if promoteLocals then s.addSymbol term (frameName term.name) (.member (frameName term.name))
      else
        let defaults := match t.initial? term.id with
          | some value => s.defaults.insert term.name value
          | none => s.defaults
        { s with locals := s.locals ++ [term.id], defaults }.addSymbol term term.name
          (.local s.locals.length)
  | .literal => s.addSymbol term term.name (.literal (term.literal.getD ""))
  | .member => s.addSymbol term term.name (.member term.name)
  | .persistentFrame => s.addSymbol term term.name (.member term.name)

/-- Storage for every term of the table: parameters as the signature orders them, then the others in
the order they were registered. -/
def ofTerms (t : TermTable) (signature : Signature) (promoteLocals : Bool) : SymbolTable :=
  let parameters := parameterTerms t signature
  let s := parameters.zipIdx.foldl (addParameter t) { parameters }
  t.terms.foldl (addTerm t promoteLocals) s

end SymbolTable

end VisualScript
