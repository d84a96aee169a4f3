import VisualScript.Code.Statement

namespace VisualScript

/-- The statements of a scheduled node, each with the node that emitted it. -/
structure Block where
  node : NodeId
  statements : List (NodeId × Statement)
deriving DecidableEq

/-- A linked body. The three lists run side by side. -/
structure Body where
  statements : List Statement := []
  blockStarts : OrderedMap NodeId Nat := ∅
  statementNodes : List NodeId := []
  origins : List (Option Origin) := []
deriving DecidableEq

namespace Block

def lastIsGotoTo (b : Block) (id : NodeId) : Bool :=
  match b.statements.getLast? with
  | some (_, .goto (.node n)) => n = id
  | _ => false

/-- Drops the final jump of each block that leads to the block behind it. -/
def fallThrough : List Block → List Block
  | [] => []
  | [b] => [b]
  | b :: next :: rest =>
      (if b.lastIsGotoTo next.node then { b with statements := b.statements.dropLast } else b) ::
        fallThrough (next :: rest)

/-- The offsets at which the blocks start, from the given offset on. -/
def starts : Nat → List Block → List (NodeId × Nat)
  | _, [] => []
  | offset, b :: rest => (b.node, offset) :: starts (offset + b.statements.length) rest

end Block

namespace Body

/-- What an abandoned function does: nothing but return. -/
def stub : Body := { statements := [.ret] }

def blockStart? (b : Body) (id : NodeId) : Option Nat := b.blockStarts.get? id

/-- A node without a block ends the thread. -/
def resolve (starts : OrderedMap NodeId Nat) : JumpTarget → JumpTarget
  | .node id => match starts.get? id with
    | some offset => .offset offset
    | none => .endOfThread
  | t => t

/-- Lays out the blocks in order and turns the jumps between nodes into jumps between offsets. -/
def link (blocks : List Block) (originOf : NodeId → Option Origin) : Body :=
  let blocks := Block.fallThrough blocks
  let blockStarts := OrderedMap.ofList (Block.starts 0 blocks)
  let code := blocks.flatMap Block.statements
  { statements := code.map fun s => s.2.mapTarget (resolve blockStarts)
    blockStarts
    statementNodes := code.map Prod.fst
    origins := code.map fun s => originOf s.1 }

end Body

end VisualScript
