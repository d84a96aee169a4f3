import VisualScript.PinType

namespace VisualScript

abbrev NodeId := Nat

abbrev LinkId := Nat

inductive Direction where
  | input
  | output
deriving DecidableEq

def Direction.opposite : Direction → Direction
  | .input => .output
  | .output => .input

def Direction.name : Direction → String
  | .input => "In"
  | .output => "Out"

inductive Role where
  | control
  | data
deriving DecidableEq

def Role.name : Role → String
  | .control => "Control"
  | .data => "Data"

/-- A typed connection point of a node. -/
structure Port where
  name : String
  direction : Direction
  role : Role
  type : PinType
  default : Option String := none
deriving DecidableEq

namespace Port

def execIn (name : String) : Port := ⟨name, .input, .control, .exec, none⟩

def execOut (name : String) : Port := ⟨name, .output, .control, .exec, none⟩

def dataIn (name : String) (type : PinType) (default : Option String := none) : Port :=
  ⟨name, .input, .data, type, default⟩

def dataOut (name : String) (type : PinType) (default : Option String := none) : Port :=
  ⟨name, .output, .data, type, default⟩

def is (role : Role) (direction : Direction) (p : Port) : Bool := p.role = role && p.direction = direction

end Port

/-- One end of a link. Positions of ports are counted in 16 bits. -/
structure PortRef where
  node : NodeId
  index : UInt16
deriving DecidableEq

namespace PortRef

/-- By node, then by position. -/
def le (a b : PortRef) : Bool := a.node < b.node || (a.node = b.node && a.index ≤ b.index)

def text (p : PortRef) : String := toString p.node ++ ":" ++ toString p.index.toNat

end PortRef

/-- A block of a graph. What it does is told by its kind; the order key is given by the graph. -/
structure Node (κ : Type) where
  kind : κ
  title : String
  ports : List Port := []
  isPure : Bool := false
  position : Int × Int := (0, 0)
  deprecated : Bool := false
  comment : Option String := none
  order : Nat := 0

namespace Node

variable {κ : Type}

def port? (n : Node κ) (index : UInt16) : Option Port := n.ports[index.toNat]?

/-- The ports with their positions. -/
def indexed (n : Node κ) : List (UInt16 × Port) := n.ports.zipIdx.map fun p => (UInt16.ofNat p.2, p.1)

/-- The position of the first port of that name and direction. -/
def findPort? (n : Node κ) (name : String) (direction : Direction) : Option UInt16 :=
  (n.indexed.find? fun p => p.2.name = name ∧ p.2.direction = direction).map Prod.fst

def portsWhere (n : Node κ) (role : Role) (direction : Direction) : List (UInt16 × Port) :=
  n.indexed.filter fun p => p.2.is role direction

def hasControl (n : Node κ) : Bool := n.ports.any fun p => p.role = .control

def hasControlInput (n : Node κ) : Bool := n.ports.any (Port.is .control .input)

def addPorts (n : Node κ) (ports : List Port) : Node κ := { n with ports := n.ports ++ ports }

end Node

end VisualScript
