import VisualScript.Report.Issue
import VisualScript.Script.Unit

namespace VisualScript

/-- A variable or a component as the class holds it. -/
structure MemberDecl where
  name : String
  type : PinType
  isComponent : Bool
  default : Option String := none
deriving DecidableEq

/-- The resolved names of a class. -/
structure Schema where
  name : String := ""
  parent : Option String := none
  members : OrderedMap String MemberDecl := ∅
  renamed : OrderedMap String String := ∅
  functions : OrderedMap String Nat := ∅
  events : List String := []
  eventGraphFunction : String := ""

namespace Schema

def eventGraphName (cls : String) : String := "ExecuteEventGraph_" ++ cls

/-- Enters the function graphs from the given index on; a name counts for the first graph only. -/
def addFunctions (functions : OrderedMap String Nat) (index : Nat) :
    List ScriptGraph → OrderedMap String Nat × List (String × Issue)
  | [] => (functions, [])
  | g :: rest =>
      if functions.contains g.functionName then
        let (functions, issues) := addFunctions functions (index + 1) rest
        (functions, (g.name, .duplicateFunction g.functionName) :: issues)
      else addFunctions (functions.insert g.functionName index) (index + 1) rest

/-- The names of the events of all pages, each once. -/
def eventNames (pages : List ScriptGraph) : List String :=
  (pages.flatMap fun g => g.events.map fun e => e.2.name).eraseDups

/-- The first of the numbered names that is not taken. -/
def freeName (taken : List String) (declared : String) : String :=
  let candidates := (List.range (taken.length + 1)).map fun n => declared ++ "_" ++ toString (n + 1)
  (candidates.find? fun c => c ∉ taken).getD declared

/-- The members declared by a unit: components, then variables. -/
def declared (u : CompilationUnit) : List MemberDecl :=
  u.components.map (fun c => ⟨c.name, ⟨.object c.cls, .single⟩, true, none⟩) ++
    u.fields.map fun v => ⟨v.name, v.type, false, v.default⟩

/-- Enters a member. One whose name is taken gets a numbered name; it is found under its declared
name if that is the name of something callable. -/
def addMember (callables : List String) (s : Schema) (m : MemberDecl) : Schema × List Issue :=
  let taken := callables ++ s.members.keys
  if m.name ∈ taken then
    let name := freeName taken m.name
    let renamed := if m.name ∈ callables then s.renamed.insert m.name name else s.renamed
    ({ s with members := s.members.insert name { m with name }, renamed }, [.nameAutoRenamed m.name name])
  else ({ s with members := s.members.insert m.name m }, [])

def addMembers (callables : List String) (s : Schema) : List MemberDecl → Schema × List Issue
  | [] => (s, [])
  | m :: rest =>
      let (s, issues) := addMember callables s m
      let (s, more) := addMembers callables s rest
      (s, issues ++ more)

/-- Names that can be called: functions, events and the event graph. -/
def callables (s : Schema) : List String := s.functions.keys ++ s.events ++ [s.eventGraphFunction]

/-- The schema of a unit, with the issues found and the graph or class each concerns. -/
def ofUnit (u : CompilationUnit) : Schema × List (String × Issue) :=
  let (functions, duplicates) := addFunctions ∅ 0 u.functionGraphs
  let s : Schema :=
    { name := u.name
      parent := u.parent.map ParentClass.name
      functions
      events := eventNames u.eventGraphs
      eventGraphFunction := eventGraphName u.name }
  let (s, renames) := addMembers s.callables s (declared u)
  (s, duplicates ++ renames.map fun i => (u.name, i))

/-- The member an authored name stands for. -/
def member? (s : Schema) (name : String) : Option MemberDecl :=
  match s.members.get? name with
  | some m => some m
  | none => (s.renamed.get? name).bind s.members.get?

def component? (s : Schema) (name : String) : Option MemberDecl :=
  (s.members.get? name).filter MemberDecl.isComponent

end Schema

end VisualScript
