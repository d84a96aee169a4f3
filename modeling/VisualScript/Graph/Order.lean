import VisualScript.Graph.Closure
import VisualScript.OrderedMap

namespace VisualScript

variable {α : Type} [DecidableEq α]

/-- How many links still lead to each member, and the members that no link leads to any more, the first
of them in front. -/
structure Walk (α : Type) where
  degrees : OrderedMap α Nat
  ready : List α

namespace Walk

/-- Puts a member before the first one that comes after it. -/
def enqueue (before : α → α → Bool) (x : α) : List α → List α
  | [] => [x]
  | y :: rest => if before x y then x :: y :: rest else y :: enqueue before x rest

/-- One link more leads to `x`. -/
def raise (degrees : OrderedMap α Nat) (x : α) : OrderedMap α Nat :=
  match degrees.get? x with
  | some d => degrees.insert x (d + 1)
  | none => degrees

/-- One link less leads to `x`. After the last one it is ready. -/
def release (before : α → α → Bool) (w : Walk α) (x : α) : Walk α :=
  match w.degrees.get? x with
  | some d =>
      { degrees := w.degrees.insert x (d - 1)
        ready := if d - 1 = 0 then enqueue before x w.ready else w.ready }
  | none => w

def start (after : α → List α) (before : α → α → Bool) (members : List α) : Walk α :=
  let degrees := members.foldl (fun degrees x => (after x).foldl raise degrees)
    (.ofList (members.map fun x => (x, 0)))
  let free := members.filter fun x => degrees.get? x = some 0
  { degrees, ready := free.foldl (fun ready x => enqueue before x ready) [] }

/-- Takes the first ready member again and again, so many times at most. -/
def run (after : α → List α) (before : α → α → Bool) : Nat → Walk α → List α
  | 0, _ => []
  | n + 1, w => match w.ready with
    | [] => []
    | x :: rest => x :: run after before n ((after x).foldl (release before) { w with ready := rest })

end Walk

/-- The members in an order in which all links lead forward, as far as there is one. -/
def walk (after : α → List α) (before : α → α → Bool) (members : List α) : List α :=
  (Walk.start after before members).run after before members.length

/-- The members of components with more than one, or with one that a link leads back to. -/
def onCycles (after : α → List α) (components : List (List α)) : List α :=
  (components.filter fun c => 1 < c.length || c.head?.any fun x => x ∈ after x).flatten

/-- The members that are reached from `x` and lead to it. -/
def component (after : α → List α) (members : List α) (x : α) : List α :=
  members.filter fun y => y ∈ closure members after [x] [] ∧ x ∈ closure members after [y] []

/-- Divides the members into those that can be reached from each other. -/
def strongComponents (after : α → List α) (members : List α) : List (List α) :=
  let first x := (component after members x).head? = some x
  (members.filter fun x => first x).map (component after members)

/-- The links to members only. -/
def restrict (after : α → List α) (members : List α) (x : α) : List α :=
  (after x).filter fun y => y ∈ members

end VisualScript
