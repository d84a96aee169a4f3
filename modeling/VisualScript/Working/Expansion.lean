import VisualScript.Script.Shape
import VisualScript.Working.Basic

namespace VisualScript

structure ExpansionStats where
  instances : Nat := 0
  tunnels : Nat := 0
  synthesized : Nat := 0
  rounds : Nat := 0
deriving DecidableEq

/-- A function whose instances are being replaced by their bodies. Once a ceiling is hit, the rest
stays as it is. -/
structure Expansion where
  work : Working
  stats : ExpansionStats := {}
  halted : Bool := false

namespace Expansion

def onWork (x : Expansion) (f : Working → Working) : Expansion := { x with work := f x.work }

def inspect (x : Expansion) (p : PortRef) : Expansion := x.onWork fun w => w.inspect p

/-- Reports a ceiling and stops. -/
def halt (x : Expansion) (body detail : String) (id : NodeId) : Expansion :=
  { x with work := x.work.report (.recursiveExpansion body detail) (some id), halted := true }

/-- Links two ports, or reports why not. -/
def rewire (w : Working) (source sink : PortRef) : Working :=
  match w.graph.connect source sink with
  | .ok (_, graph) => { w with graph }
  | .error e => w.report (.invalidLink e.message) (some sink.node) (some sink.index)

def rewireAll (w : Working) (sources sinks : List PortRef) : Working :=
  sources.foldl (fun w source => sinks.foldl (fun w sink => rewire w source sink) w) w

/-- Adds a node on behalf of an instance. -/
def synthesize (x : Expansion) (n : ScriptNode) (site : NodeId) : NodeId × Expansion :=
  let (id, graph) := x.work.graph.addNode n
  (id, { x with
    work := { x.work with graph, provenance := x.work.provenance.recordSynthesized id site }
    stats := { x.stats with synthesized := x.stats.synthesized + 1 } })

/-- Wires sources to sinks, through a boundary marker if one is asked for and there is something on
both sides. -/
def wire (env : Env) (x : Expansion) (role : Role) (sources sinks : List PortRef)
    (site : Option BoundarySite) (callSite : NodeId) : Expansion :=
  match role, site with
  | .control, some site =>
      if env.options.debugInstrumentation && !sources.isEmpty && !sinks.isEmpty then
        let (boundary, x) := x.synthesize (ScriptNode.tunnelBoundary site) callSite
        x.onWork fun w => rewireAll (rewireAll w sources [⟨boundary, 0⟩]) [⟨boundary, 1⟩] sinks
      else x.onWork fun w => rewireAll w sources sinks
  | _, _ => x.onWork fun w => rewireAll w sources sinks

/-- Wires all that is linked to the input port `up` straight to all that is linked to the output port
`down`, and unlinks both. An unlinked data input hands on its default. -/
def splice (env : Env) (x : Expansion) (up down : PortRef) (site : Option BoundarySite)
    (callSite : NodeId) :
    Expansion :=
  match x.work.graph.port? up with
  | none => x
  | some port =>
      let x := x.inspect up
      let sources := x.work.graph.farEnds up
      let sinks := x.work.graph.farEnds down
      let x := x.onWork fun w => { w with graph := (w.graph.disconnect up).disconnect down }
      if port.role = .data ∧ sources.isEmpty then
        match port.default with
        | some value =>
            x.onWork fun w =>
              { w with graph := sinks.foldl (fun g p => g.setDefault p (some value)) w.graph }
        | none => x
      else wire env x port.role sources sinks site callSite

/-- The body an instance stands for, and the type its wildcards are resolved to. -/
def body? (macros : MacroLibrary) : NodeKind → Option (ScriptGraph × Option PinType)
  | .macroInstance name resolved => (macros.get? name).map fun g => (g, resolved)
  | .composite body => some (body, none)
  | _ => none

/-- Resolves the wildcard ports of nodes. -/
def resolvePorts (resolved : Option PinType) (ids : List NodeId) (g : ScriptGraph) : ScriptGraph :=
  match resolved with
  | none => g
  | some type => ids.foldl (fun g id => g.modifyNode id fun n =>
      { n with ports := n.ports.map fun p => { p with type := p.type.resolve type } }) g

def tunnelsOf (g : ScriptGraph) (ids : List NodeId) (side : TunnelSide) : List NodeId :=
  ids.filter fun id => match g.node? id with
    | some n => n.kind.isTunnelOf side
    | none => false

/-- An instance with the tunnels of the body that was merged in for it. -/
structure Site where
  id : NodeId
  node : ScriptNode
  body : String
  input : Option NodeId
  output : Option NodeId

/-- Connects one port of an instance with the port of the same name on the tunnel behind it. -/
def joinPort (env : Env) (s : Site) (x : Expansion) (p : UInt16 × Port) : Expansion :=
  let outer : PortRef := ⟨s.id, p.1⟩
  let inner := match p.2.direction with
    | .input => s.input.bind fun t => x.work.graph.findPort? t p.2.name .output
    | .output => s.output.bind fun t => x.work.graph.findPort? t p.2.name .input
  match inner, p.2.direction with
  | some inner, .input => splice env x outer inner (some .entry) s.id
  | some inner, .output => splice env x inner outer (some .exit) s.id
  | none, _ =>
      let x := x.inspect outer
      if x.work.graph.isLinked outer then
        x.onWork fun w => w.report (.missingTunnelPort s.node.title s.body p.2.name) (some s.id) (some p.1)
      else x

/-- The literal that feeds an unlinked input: an empty array, or an enum by its default. The number is
the position of its output. -/
def feeder? (p : Port) : Option (ScriptNode × UInt16) :=
  if p.type.isArray then some (ScriptNode.makeArray p.type.base 0, 0)
  else match p.type.enumName?, p.default with
    | some enumName, some value => some (ScriptNode.enumLiteral enumName value, 1)
    | _, _ => none

def feedPort (site copy : NodeId) (x : Expansion) (p : UInt16 × Port) : Expansion :=
  match feeder? p.2 with
  | none => x
  | some (n, output) =>
      let (id, x) := x.synthesize n site
      x.onWork fun w => rewire w ⟨id, output⟩ ⟨copy, p.1⟩

/-- Gives the unlinked array and enum inputs of a copied node something to read. -/
def feedCopy (site : NodeId) (x : Expansion) (copy : NodeId) : Expansion :=
  match x.work.graph.node? copy with
  | none => x
  | some n =>
      if n.kind.isTunnel then x
      else
        let inputs := n.portsWhere .data .input
        let unlinked := inputs.filter fun p => !x.work.graph.isLinked ⟨copy, p.1⟩
        unlinked.foldl (feedPort site copy) (inputs.foldl (fun x p => x.inspect ⟨copy, p.1⟩) x)

def removeTunnel (x : Expansion) (id : NodeId) : Expansion :=
  { x with work := x.work.removeNode id, stats := { x.stats with tunnels := x.stats.tunnels + 1 } }

/-- Connects a body that was merged in for an instance, and removes the instance and the tunnels. -/
def connectBody (env : Env) (x : Expansion) (s : Site) (copies : List NodeId) : Expansion :=
  let x := s.node.indexed.foldl (joinPort env s) x
  let x := copies.foldl (feedCopy s.id) x
  let x := (s.input.toList ++ s.output.toList).foldl removeTunnel x
  x.onWork fun w => w.removeNode s.id

/-- What to say of a body with more tunnels than one on a side. -/
def tunnelReason (body : String) (inputs outputs : Nat) : String :=
  s!"body '{body}' has {inputs} input and {outputs} output tunnels; expected at most one of each"

/-- Replaces an instance by a copy of its body. -/
def inline (env : Env) (x : Expansion) (id : NodeId) (n : ScriptNode) (body : ScriptGraph)
    (resolved : Option PinType) : Expansion :=
  let depth := env.options.maxExpansionDepth
  if depth ≤ x.work.provenance.depth id then
    x.halt body.name s!"instances nest deeper than {depth} levels" id
  else
    let (map, graph) := x.work.graph.merge body
    let x := { x with
      work := { x.work with graph, provenance := x.work.provenance.recordExpansion map body.name id }
      stats := { x.stats with instances := x.stats.instances + 1 } }
    let limit := env.options.maxExpandedNodes
    if limit < x.work.graph.nodeCount then x.halt body.name s!"expanded graph exceeds {limit} nodes" id
    else
      let x := x.onWork fun w => { w with graph := resolvePorts resolved map.copies w.graph }
      let inputs := tunnelsOf x.work.graph map.copies .input
      let outputs := tunnelsOf x.work.graph map.copies .output
      if 1 < inputs.length ∨ 1 < outputs.length then
        let reason := tunnelReason body.name inputs.length outputs.length
        x.onWork fun w =>
          (map.copies.foldl Working.removeNode
            (w.report (.tunnelCollapse n.title reason) (some id))).removeNode id
      else connectBody env x ⟨id, n, body.name, inputs.head?, outputs.head?⟩ map.copies

/-- Expands one instance; a macro that does not exist is reported and the instance dropped. -/
def expandInstance (env : Env) (macros : MacroLibrary) (x : Expansion) (id : NodeId) : Expansion :=
  if x.halted then x
  else match x.work.graph.node? id with
    | none => x
    | some n => match body? macros n.kind, n.kind with
      | some (body, resolved), _ => inline env x id n body resolved
      | none, .macroInstance name _ =>
          x.onWork fun w => (w.report (.missingMacro n.title name) (some id)).removeNode id
      | none, _ => x

/-- Passes one port of a stray tunnel through to its counterpart. -/
def passPort (env : Env) (id : NodeId) (n : ScriptNode) (x : Expansion) (p : UInt16 × Port) : Expansion :=
  let here : PortRef := ⟨id, p.1⟩
  match x.work.graph.findPort? id p.2.name p.2.direction.opposite with
  | some other => if p.2.direction = .input then splice env x here other none id else x
  | none =>
      let x := x.inspect here
      if x.work.graph.isLinked here then
        let reason := "port '" ++ p.2.name ++ "' has no counterpart to pass through"
        x.onWork fun w => w.report (.tunnelCollapse n.title reason) (some id) (some p.1)
      else x

/-- Removes a tunnel that belongs to no instance: each input is wired through to the output of the
same name. -/
def collapseTunnel (env : Env) (x : Expansion) (id : NodeId) : Expansion :=
  match x.work.graph.node? id with
  | none => x
  | some n => (n.indexed.foldl (passPort env id n) x).removeTunnel id

/-- One round over all instances, or over the tunnels once no instance is left. -/
def round (env : Env) (macros : MacroLibrary) (x : Expansion) (instances tunnels : List NodeId) :
    Expansion :=
  let x := { x with stats := { x.stats with rounds := x.stats.rounds + 1 } }
  if instances.isEmpty then tunnels.foldl (collapseTunnel env) x
  else instances.foldl (expandInstance env macros) x

def rounds (env : Env) (macros : MacroLibrary) : Nat → Expansion → Expansion
  | 0, x => x
  | fuel + 1, x =>
      let instances := x.work.graph.findNodes fun n => n.kind.isInstance
      let tunnels := x.work.graph.findNodes fun n => n.kind.isTunnel
      if x.halted || (instances.isEmpty && tunnels.isEmpty) then x
      else rounds env macros fuel (round env macros x instances tunnels)

end Expansion

namespace Working

/-- Expands until no instance and no tunnel is left. Each round nests one level deeper, so the depth
limit bounds the rounds over instances; one more is for tunnels. -/
def expand (env : Env) (macros : MacroLibrary) (w : Working) : Expansion :=
  Expansion.rounds env macros (env.options.maxExpansionDepth + 2) { work := w }

end Working

end VisualScript
