import VisualScript.Working.Handler

namespace VisualScript.Handler

open Build

/-- Nothing to declare. -/
def noTerms : Env → NodeId → ScriptNode → Build Unit := fun _ _ _ => return ()

/-- Nothing to do. -/
def noCode : Env → NodeId → ScriptNode → Build (List Statement) := fun _ _ _ => return []

/-- Goes on behind the output `then`. -/
def andThen (id : NodeId) (code : List Statement) : Build (List Statement) := do
  return code ++ [(← get).followJump id "then"]

/-- The initial value of a local, unless it has none. -/
def initLocal (l : LocalDecl) : Build (List Statement) := do
  match (← get).terms.find? .local l.name, l.default with
  | some dest, some value => return [.assign dest (← literal l.type value)]
  | _, _ => return []

/-- The data outputs of an entry are the parameters of the function. -/
def functionEntry : Handler where
  register _ id n := do
    (n.portsWhere .data .output).forM fun p => do
      bind ⟨id, p.1⟩ (← onTerms fun t => t.add .parameter p.2.name p.2.type)
    match n.kind with
    | .functionEntry spec => spec.locals.forM fun l => do
        let _ ← onTerms fun t => t.addLocal l.name l.type l.default
    | _ => return ()
  emit _ id n := do
    match n.kind with
    | .functionEntry spec =>
        let code := (← spec.locals.mapM initLocal).flatten
        match spec.computedDispatch, ((← get).dataOutputs id).head? with
        | true, some index => return code ++ [.computedGoto index]
        | _, _ => andThen id code
    | _ => return []
  early := true
  isRoot _ := true

/-- The data inputs of a result are the outputs of the function; results of one function share them
by name. -/
def functionResult : Handler where
  register _ id n := (n.portsWhere .data .input).forM fun p => do
    match (← get).terms.find? .output p.2.name with
    | some term => bind ⟨id, p.1⟩ term
    | none => bind ⟨id, p.1⟩ (← onTerms fun t => t.add .output p.2.name p.2.type)
  emit _ id n := do
    let stores ← (n.portsWhere .data .input).mapM fun p => do
      match (← get).terms.net? ⟨id, p.1⟩ with
      | some dest => return [Statement.assign dest (← inputTerm ⟨id, p.1⟩)]
      | none => return []
    return stores.flatten ++ [.ret]
  early := true

/-- The parameters of an event stand in slots of the class, where its stub has put them. -/
def event : Handler where
  register _ id n := do
    match n.kind with
    | .event spec => (n.portsWhere .data .output).forM fun p => do
        bind ⟨id, p.1⟩ (← classSlot .persistentFrame (slotName spec.name p.2.name) p.2.type id)
    | _ => return ()
  emit _ id _ := andThen id []
  early := true
  isRoot _ := true

def callFunction : Handler where
  emit _ id n := do
    match n.kind with
    | .callFunction function =>
        let args ← dataInputs id
        let code := [.callFunction function args ((← get).dataOutputs id)]
        if n.hasControl then andThen id code else return code
    | _ => return []

def callEventGraph : Handler where
  register := noTerms
  emit env id n := do
    match n.kind with
    | .callEventGraph event => andThen id [.callEventGraph env.schema.eventGraphFunction event none]
    | _ => return []

/-- The term of the variable a node names, which has to exist. -/
def variableOf (env : Env) (name : String) (id : NodeId) (n : ScriptNode) : Build (Option TermId) := do
  match ← variableTerm? env name id with
  | some term => return some term
  | none =>
      report (.unknownVariable n.title name) (some id)
      return none

def variableGet : Handler where
  register env id n := do
    match n.kind with
    | .variableGet name => match ← variableOf env name id n with
      | some term => (n.portsWhere .data .output).forM fun p => bind ⟨id, p.1⟩ term
      | none => return ()
    | _ => return ()
  emit := noCode

def variableSet : Handler where
  register env id n := do
    match n.kind with
    | .variableSet name => match ← variableOf env name id n, n.findPort? "output" .output with
      | some term, some output => bind ⟨id, output⟩ term
      | _, _ => return ()
    | _ => return ()
  emit env id n := do
    match n.kind with
    | .variableSet name => match ← variableTerm? env name id, n.findPort? "value" .input with
      | some dest, some value => andThen id [.assign dest (← inputTerm ⟨id, value⟩)]
      | _, _ => andThen id []
    | _ => return []

/-- Stores each data input in the slot of the same name. -/
def persistentFrameAssign : Handler where
  register := noTerms
  emit _ id n := do
    let stores ← (n.portsWhere .data .input).mapM fun p => do
      let dest ← classSlot .persistentFrame p.2.name p.2.type id
      return Statement.assign dest (← inputTerm ⟨id, p.1⟩)
    andThen id stores

def branch : Handler where
  register := noTerms
  emit _ id n := do
    let condition ← match n.findPort? "condition" .input with
      | some index => inputTerm ⟨id, index⟩
      | none => literal ⟨.bool, .single⟩ "false"
    let w ← get
    return [.gotoIfNot condition (w.follow id "false"), w.followJump id "true"]

/-- Runs the linked outputs in turn: all but the first wait as pending flows. -/
def sequence : Handler where
  register := noTerms
  emit _ id n := do
    let w ← get
    let targets := (n.portsWhere .control .output).map fun p => w.follow id p.2.name
    match targets.filter fun t => t ≠ .endOfThread with
    | [] => return [.endOfThread]
    | first :: rest => return rest.reverse.map .pushFlow ++ [.jump first]

def tunnelBoundary : Handler where
  register := noTerms
  emit _ id n := do
    match n.kind with
    | .tunnelBoundary site => andThen id [.boundary site ((← get).provenance.outermostCallSite? id)]
    | _ => return []

/-- Binds its outputs to literals, by their defaults or else its title. -/
def literalNode : Handler where
  register _ id n := (n.portsWhere .data .output).forM fun p => do
    bind ⟨id, p.1⟩ (← literal p.2.type (p.2.default.getD n.title))
  emit := noCode

def makeArray : Handler where
  emit _ id _ := do
    let elements ← dataInputs id
    match ((← get).dataOutputs id).head? with
    | some dest => return [.createArray dest elements]
    | none => return []

def enumLiteral : Handler where
  emit _ id n := do
    match n.findPort? "value" .input, ((← get).dataOutputs id).head? with
    | some input, some dest => return [.assign dest (← inputTerm ⟨id, input⟩)]
    | _, _ => return []

/-- Comments have no code; they are kept where the graph itself is kept. -/
def comment : Handler where
  register := noTerms
  emit := noCode
  isPure _ := true
  keeps options _ := options.saveIntermediateProducts

end VisualScript.Handler

namespace VisualScript.Registry

/-- The handlers of the kinds that are built in. Instances and tunnels have none: expansion removes
them. -/
def standard : Registry :=
  OrderedMap.ofList
    [(.functionEntry, Handler.functionEntry), (.functionResult, Handler.functionResult),
      (.event, Handler.event),
      (.callFunction, Handler.callFunction), (.callEventGraph, Handler.callEventGraph),
      (.variableGet, Handler.variableGet), (.variableSet, Handler.variableSet),
      (.persistentFrameAssign, Handler.persistentFrameAssign), (.branch, Handler.branch),
      (.sequence, Handler.sequence), (.tunnelBoundary, Handler.tunnelBoundary),
      (.literal, Handler.literalNode),
      (.makeArray, Handler.makeArray), (.enumLiteral, Handler.enumLiteral), (.comment, Handler.comment)]

end VisualScript.Registry
