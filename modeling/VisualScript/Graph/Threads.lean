import VisualScript.Graph.Node

namespace VisualScript

/-- An index for each side of a node or a link. -/
structure Ends where
  output : Option Nat := none
  input : Option Nat := none
deriving DecidableEq

namespace Ends

def side (e : Ends) : Direction → Option Nat
  | .output => e.output
  | .input => e.input

def put (e : Ends) (d : Direction) (i : Option Nat) : Ends :=
  match d with
  | .output => { e with output := i }
  | .input => { e with input := i }

end Ends

/-- The order of links in a graph where some of them end at vacant ids. Every node id has the first
link of its outgoing and of its incoming thread, every link id the next one of both. A vacant node id
keeps the vacant ids after and before it in the same two places, so there a link also reads as an id.
`spare` is the vacant id that comes next. -/
structure Threads where
  heads : List Ends
  nexts : List Ends
  spare : Option NodeId
deriving DecidableEq

namespace Threads

def head (t : Threads) (d : Direction) (id : NodeId) : Option Nat := (t.heads[id]?).bind fun e => e.side d

def next (t : Threads) (d : Direction) (l : LinkId) : Option Nat := (t.nexts[l]?).bind fun e => e.side d

def setHead (t : Threads) (d : Direction) (id : NodeId) (i : Option Nat) : Threads :=
  { t with heads := t.heads.modify id fun e => e.put d i }

def setNext (t : Threads) (d : Direction) (l : LinkId) (i : Option Nat) : Threads :=
  { t with nexts := t.nexts.modify l fun e => e.put d i }

/-- The link ids along a thread. -/
def walk (t : Threads) (d : Direction) : Nat → Option Nat → List LinkId
  | 0, _ => []
  | _ + 1, none => []
  | fuel + 1, some l => if l < t.nexts.length then l :: walk t d fuel (t.next d l) else []

/-- The thread at one side of a node, as far as it has a link for each id. -/
def thread (t : Threads) (d : Direction) (id : NodeId) : List LinkId :=
  t.walk d t.nexts.length (t.head d id)

/-- Puts a link in front of the threads of its two ends. -/
def insert (t : Threads) (l : LinkId) (source target : NodeId) : Threads :=
  let ends : Ends := ⟨t.head .output source, t.head .input target⟩
  let t := { t with nexts := if l < t.nexts.length then t.nexts.set l ends else t.nexts ++ [ends] }
  (t.setHead .output source (some l)).setHead .input target (some l)

/-- Lets a thread run past a link to what comes after it. -/
def bypass (t : Threads) (d : Direction) (id : NodeId) (l : LinkId) (after : Option Nat) : Threads :=
  if t.head d id = some l then t.setHead d id after
  else match (t.thread d id).find? fun k => t.next d k = some l with
    | some k => t.setNext d k after
    | none => t

/-- Takes a link off the threads of its two ends. The next vacant link id takes its place. -/
def erase (t : Threads) (l : LinkId) (source target : NodeId) (vacant : Option LinkId) : Threads :=
  let t := (t.bypass .output source l (t.next .output l)).bypass .input target l (t.next .input l)
  { t with nexts := t.nexts.set l ⟨vacant, none⟩ }

/-- An index that is the id of a slot, or none. -/
def isSlot (t : Threads) (i : Option Nat) : Bool := i.all fun id => id < t.heads.length

def setHead? (t : Threads) (d : Direction) (id : Option NodeId) (i : Option Nat) : Threads :=
  match id with
  | some id => t.setHead d id i
  | none => t

/-- Takes the spare id out of the vacant ones. There is no way if a neighbour is not a slot. -/
def occupy (t : Threads) (id : NodeId) : Option Threads :=
  let before := t.head .input id
  let after := t.head .output id
  if t.isSlot before && t.isSlot after then
    let t := { t with heads := t.heads.set id {}, spare := after }
    some ((t.setHead? .output before after).setHead? .input after before)
  else none

/-- Puts an id in front of the vacant ones. -/
def vacate (t : Threads) (id : NodeId) : Option Threads :=
  if t.isSlot t.spare then
    let spare := t.spare
    let t := { t with heads := t.heads.set id ⟨spare, none⟩, spare := some id }
    some (t.setHead? .input spare (some id))
  else none

/-- A new slot at the end. -/
def extend (t : Threads) : Threads := { t with heads := t.heads ++ [{}] }

/-- Vacant ids among the slots, the lowest last. -/
def ofVacant (isVacant : List Bool) (links : Nat) : Threads :=
  let step (t : Threads) (vacant : Bool) : Threads :=
    if vacant then { t with heads := t.heads ++ [⟨t.spare, none⟩], spare := some t.heads.length }
      else t.extend
  isVacant.foldl step { heads := [], nexts := List.replicate links {}, spare := none }

end Threads

end VisualScript
