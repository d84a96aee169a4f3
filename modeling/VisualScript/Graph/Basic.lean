import VisualScript.Graph.Threads

namespace VisualScript

/-- A link from an output port to an input port. -/
structure Link where
  id : LinkId
  source : PortRef
  target : PortRef
  role : Role
deriving DecidableEq

namespace Link

/-- The end that is on the given side of its node. -/
def near (l : Link) : Direction → PortRef
  | .output => l.source
  | .input => l.target

def far (l : Link) (d : Direction) : PortRef := l.near d.opposite

end Link

/-- A graph of nodes with ports. The id of a node is its place among the slots; ids that became vacant
are reused, the latest first, and so are those of links. Links stand with the newest first. Only a
graph that was read with links at vacant ids has threads, which then tell how links and vacant ids
follow each other. It is torn once an edit finds them out of place. -/
structure Graph (κ : Type) where
  name : String
  slots : List (Option (Node κ)) := []
  vacant : List NodeId := []
  links : List Link := []
  linkBound : Nat := 0
  vacantLinks : List LinkId := []
  nextOrder : Nat := 0
  threads : Option Threads := none
  torn : Bool := false

namespace Graph

variable {κ : Type}

def node? (g : Graph κ) (id : NodeId) : Option (Node κ) := (g.slots[id]?).join

def contains (g : Graph κ) (id : NodeId) : Bool := (g.node? id).isSome

def nodeCount (g : Graph κ) : Nat := g.slots.countP Option.isSome

def linkCount (g : Graph κ) : Nat := g.links.length

/-- The nodes by ascending id. -/
def stored (g : Graph κ) : List (NodeId × Node κ) :=
  g.slots.zipIdx.filterMap fun s => s.1.map fun n => (s.2, n)

/-- By order key, then by id. -/
def authored (a b : NodeId × Node κ) : Bool :=
  a.2.order < b.2.order || (a.2.order = b.2.order && a.1 ≤ b.1)

/-- The nodes in authoring order. -/
def nodes (g : Graph κ) : List (NodeId × Node κ) := g.stored.mergeSort authored

def nodeIds (g : Graph κ) : List NodeId := g.nodes.map Prod.fst

/-- The ids of the nodes that satisfy `p`, in authoring order. -/
def findNodes (g : Graph κ) (p : Node κ → Bool) : List NodeId :=
  (g.nodes.filter fun n => p n.2).map Prod.fst

/-- The order key of the next node: behind all nodes if no key was given out yet. -/
def freshOrder (g : Graph κ) : Nat :=
  if g.nextOrder = 0 then (g.stored.map fun n => n.2.order + 1).foldl max 0 else g.nextOrder

/-- Order keys have 32 bits. A graph that gave out more of them is of no use. -/
def exhausted (g : Graph κ) : Bool := 4294967296 ≤ g.nextOrder

/-- Whether the graph is beyond use: order keys ran out, or an edit could not be carried out. -/
def ruined (g : Graph κ) : Bool := g.exhausted || g.torn

def tear (g : Graph κ) : Graph κ := { g with torn := true }

/-- Puts a node at a vacant id or behind all slots. -/
def place (g : Graph κ) (n : Node κ) : NodeId × Graph κ :=
  match g.threads with
  | none => match g.vacant with
    | id :: vacant => (id, { g with slots := g.slots.set id (some n), vacant })
    | [] => (g.slots.length, { g with slots := g.slots ++ [some n] })
  | some t => match t.spare with
    | none => (g.slots.length, { g with slots := g.slots ++ [some n], threads := some t.extend })
    | some id =>
        if g.slots[id]?.all Option.isSome then (id, g.tear)
        else match t.occupy id with
          | none => (id, g.tear)
          | some t => (id, { g with slots := g.slots.set id (some n), threads := some t })

def addNode (g : Graph κ) (n : Node κ) : NodeId × Graph κ :=
  let order := g.freshOrder
  let (id, g) := g.place { n with order }
  (id, { g with nextOrder := order + 1 })

def link? (g : Graph κ) (id : LinkId) : Option Link := g.links.find? fun l => l.id = id

/-- The links on a thread, up to the first vacant id. -/
def onThread (g : Graph κ) (t : Threads) (d : Direction) (id : NodeId) : List Link :=
  (((t.thread d id).map g.link?).takeWhile Option.isSome).filterMap fun l => l

/-- The links at one side of a node, the newest first. -/
def linksAt (g : Graph κ) (d : Direction) (id : NodeId) : List Link :=
  match g.threads with
  | none => g.links.filter fun l => (l.near d).node = id
  | some t => if g.contains id then g.onThread t d id else []

/-- Whether the incoming links of a node cannot be listed, because a vacant link id is among them. -/
def frayed (g : Graph κ) (id : NodeId) : Bool :=
  g.contains id && g.threads.any fun t => (t.thread .input id).any fun l => (g.link? l).isNone

/-- Adds a link without looking at the ports. -/
def addLink (g : Graph κ) (source target : PortRef) (role : Role) : LinkId × Graph κ :=
  let id := g.vacantLinks.headD g.linkBound
  (id,
    { g with
      links := ⟨id, source, target, role⟩ :: g.links
      linkBound := if g.vacantLinks.isEmpty then g.linkBound + 1 else g.linkBound
      vacantLinks := g.vacantLinks.tail
      threads := g.threads.map fun t => t.insert id source.node target.node })

def removeLink (g : Graph κ) (id : LinkId) : Graph κ :=
  match g.link? id with
  | none => g
  | some l =>
      { g with
        links := g.links.filter fun l => l.id ≠ id
        vacantLinks := id :: g.vacantLinks
        threads := g.threads.map fun t => t.erase id l.source.node l.target.node g.vacantLinks.head? }

/-- Removes the links on one thread of a node, from its head on. -/
def clearThread (d : Direction) (id : NodeId) : Nat → Graph κ → Graph κ
  | 0, g => g
  | fuel + 1, g => match g.threads.bind fun t => t.head d id with
    | none => g
    | some l => if (g.link? l).isSome then clearThread d id fuel (g.removeLink l) else g.tear

/-- Removes a node of a graph with threads. -/
def unthreadNode (g : Graph κ) (id : NodeId) : Graph κ :=
  let steps := g.links.length + 1
  let g := { g with slots := g.slots.set id none }
  let g := clearThread .input id steps (clearThread .output id steps g)
  match g.threads.bind fun t => t.vacate id with
  | some t => { g with threads := some t }
  | none => g.tear

/-- Removes a node with its links. The ids become vacant in this order: its outgoing links, its
incoming links, both with the newest first, and the node. -/
def removeNode (g : Graph κ) (id : NodeId) : Graph κ :=
  if !g.contains id then g
  else if g.threads.isSome then g.unthreadNode id
  else
    let outgoing := g.links.filter fun l => l.source.node = id
    let incoming := g.links.filter fun l => l.source.node ≠ id ∧ l.target.node = id
    { g with
      slots := g.slots.set id none
      vacant := id :: g.vacant
      links := g.links.filter fun l => l.source.node ≠ id ∧ l.target.node ≠ id
      vacantLinks := ((outgoing ++ incoming).map Link.id).reverse ++ g.vacantLinks }

def modifyNode (g : Graph κ) (id : NodeId) (f : Node κ → Node κ) : Graph κ :=
  { g with slots := g.slots.modify id (Option.map f) }

def port? (g : Graph κ) (p : PortRef) : Option Port := (g.node? p.node).bind fun n => n.port? p.index

def findPort? (g : Graph κ) (id : NodeId) (name : String) (direction : Direction) : Option PortRef :=
  ((g.node? id).bind fun n => n.findPort? name direction).map fun index => ⟨id, index⟩

def setDefault (g : Graph κ) (p : PortRef) (value : Option String) : Graph κ :=
  g.modifyNode p.node fun n =>
    { n with ports := n.ports.modify p.index.toNat fun port => { port with default := value } }

end Graph

end VisualScript
