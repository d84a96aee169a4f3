import VisualScript.Class.Compiled

namespace VisualScript

namespace SymbolTable

/-- A term as a listing shows it: a literal by its text, all else by name. -/
def termText (s : SymbolTable) (id : TermId) : String :=
  match s.symbols.get? id with
  | none => "t" ++ toString id
  | some symbol => match symbol.storage with
    | .literal value => if value = "" then "\"\"" else value
    | .member name => "self." ++ name
    | .parameter _ => symbol.name
    | .local _ => symbol.name

def termsText (s : SymbolTable) (ids : List TermId) : String := ", ".intercalate (ids.map s.termText)

end SymbolTable

namespace JumpTarget

def text : JumpTarget → String
  | node id => "node " ++ toString id
  | offset n => "@" ++ toString n
  | endOfThread => "end"

end JumpTarget

def Statement.text (s : SymbolTable) : Statement → String
  | comment text => "// " ++ text
  | debugSite node => "debug_site " ++ toString node
  | boundary site (some callSite) => "boundary " ++ site.name ++ " via " ++ callSite.text
  | boundary site none => "boundary " ++ site.name
  | callFunction function args [] => "call " ++ function ++ "(" ++ s.termsText args ++ ")"
  | callFunction function args results =>
      "call " ++ function ++ "(" ++ s.termsText args ++ ") -> " ++ s.termsText results
  | assign dest src => s.termText dest ++ " = " ++ s.termText src
  | createArray dest elements => s.termText dest ++ " = [" ++ s.termsText elements ++ "]"
  | goto target => "goto " ++ target.text
  | gotoIfNot condition target => "if not " ++ s.termText condition ++ " goto " ++ target.text
  | pushFlow target => "push_flow " ++ target.text
  | endOfThread => "end_of_thread"
  | computedGoto index => "goto *" ++ s.termText index
  | callEventGraph function event offset =>
      let at_ := match offset with
        | some n => "@" ++ toString n
        | none => "@?"
      "call_event_graph " ++ function ++ " " ++ at_ ++ " (" ++ event ++ ")"
  | ret => "return"
  | custom name args => name ++ "(" ++ s.termsText args ++ ")"

def Origin.text (o : Origin) : String :=
  o.source.text ++ match o.callSite? with
    | some site => " via " ++ site.text
    | none => ""

def Param.text (p : Param) : String :=
  (match p.direction with
    | .input => ""
    | .output => "out ") ++ p.name ++ ": " ++ p.type.display

def Signature.text (s : Signature) : String :=
  s.name ++ "(" ++ ", ".intercalate (s.params.map Param.text) ++ ")"

namespace CompiledFunction

def header (f : CompiledFunction) : String :=
  "function " ++ f.signature.text ++
    String.join (f.signature.flags.setNames.map fun n => " " ++ n.map Char.toLower)

/-- One line for each statement. Offsets stand flush right. -/
def codeLine (f : CompiledFunction) (origins : Bool) (s : Statement × Nat) : String :=
  let width := (toString (f.body.statements.length - 1)).length
  let origin := match f.body.origins[s.2]? with
    | some (some o) => if origins then "  ; " ++ o.text else ""
    | _ => ""
  "  " ++ Text.padLeft width (toString s.2) ++ ": " ++ s.1.text f.symbols ++ origin

def lines (f : CompiledFunction) (origins : Bool) : List String :=
  [f.header] ++ f.overrideOf.toList.map (fun owner => "  overrides " ++ owner) ++
    (if f.abandoned then ["  abandoned"] else []) ++ f.body.statements.zipIdx.map (f.codeLine origins)

end CompiledFunction

namespace CompiledClass

def originWord : MemberOrigin → String
  | .field => "var"
  | .component => "component"
  | .persistentFrame => "frame"

/-- The default of a member: its value if there is a default object, else the declared text. -/
def defaultText (c : CompiledClass) (m : MemberSlot) : String :=
  match c.defaultObject.bind fun o => o.values.get? m.name with
  | some v => v.text
  | none => m.default.getD "-"

def memberLine (c : CompiledClass) (m : MemberSlot) : String :=
  "  " ++ originWord m.origin ++ " " ++ m.name ++ ": " ++ m.type.display ++ " = " ++ c.defaultText m

/-- The class as text for readers, on demand with the origin of each statement. -/
def listing (c : CompiledClass) (origins : Bool) : String :=
  let head := match c.layout.parent with
    | some parent => "class " ++ c.name ++ " : " ++ parent
    | none => "class " ++ c.name
  let implements := if c.layout.interfaces.isEmpty then [] else
    ["  implements " ++ ", ".intercalate c.layout.interfaces]
  "\n".intercalate ([head] ++ implements ++ c.layout.members.values.map c.memberLine ++
    c.functions.flatMap fun f => f.lines origins)

end CompiledClass

end VisualScript
