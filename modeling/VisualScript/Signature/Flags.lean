import VisualScript.Text.Blank
import VisualScript.Text.Integer

namespace VisualScript

/-- Visibility, overriding, purity and replication of a function, one bit each. -/
structure Flags where
  bits : UInt32 := 0
deriving DecidableEq

namespace Flags

def isPublic : Flags := ⟨0x1⟩

def isProtected : Flags := ⟨0x2⟩

def isPrivate : Flags := ⟨0x4⟩

def overridable : Flags := ⟨0x8⟩

def isPure : Flags := ⟨0x10⟩

def isConst : Flags := ⟨0x20⟩

def event : Flags := ⟨0x40⟩

def eventGraph : Flags := ⟨0x80⟩

def isFinal : Flags := ⟨0x100⟩

/-- The three visibilities. -/
def accessMask : Flags := ⟨0x7⟩

/-- Everything about replication. -/
def netMask : Flags := ⟨0x3e00⟩

/-- The single flags with their names, in the order they are written. -/
def names : List (String × Flags) :=
  [("PUBLIC", ⟨0x1⟩), ("PROTECTED", ⟨0x2⟩), ("PRIVATE", ⟨0x4⟩), ("OVERRIDABLE", ⟨0x8⟩), ("PURE", ⟨0x10⟩),
    ("CONST", ⟨0x20⟩), ("EVENT", ⟨0x40⟩), ("EVENT_GRAPH", ⟨0x80⟩), ("FINAL", ⟨0x100⟩), ("NET", ⟨0x200⟩),
    ("NET_MULTICAST", ⟨0x400⟩), ("NET_SERVER", ⟨0x800⟩), ("NET_CLIENT", ⟨0x1000⟩),
    ("NET_RELIABLE", ⟨0x2000⟩)]

/-- Names that stand for several flags at once; they are read and never written. -/
def groups : List (String × Flags) := [("ACCESS", accessMask), ("NET_FUNC", netMask)]

def known : Flags := ⟨0x3fff⟩

def union (a b : Flags) : Flags := ⟨a.bits ||| b.bits⟩

def inter (a b : Flags) : Flags := ⟨a.bits &&& b.bits⟩

def diff (a b : Flags) : Flags := ⟨a.bits &&& ~~~b.bits⟩

def isEmpty (a : Flags) : Bool := a.bits = 0

def contains (a b : Flags) : Bool := a.bits &&& b.bits = b.bits

def intersects (a b : Flags) : Bool := !(a.inter b).isEmpty

def access (a : Flags) : Flags := a.inter accessMask

def net (a : Flags) : Flags := a.inter netMask

def setNames (a : Flags) : List String := (names.filter fun p => a.contains p.2).map Prod.fst

/-- The names that are set, then the unknown bits in hexadecimal. -/
def text (a : Flags) : String :=
  let rest := a.diff known
  let unknown := if rest.isEmpty then [] else ["0x" ++ Text.hex rest.bits.toNat]
  " | ".intercalate (a.setNames ++ unknown)

/-- One piece between bars: raw bits or a name. -/
def piece? (s : List Char) : Option Flags :=
  match s with
  | '0' :: 'x' :: digits => (Text.hex32? digits).map Flags.mk
  | s => ((names ++ groups).find? fun p => p.1.toList = s).map Prod.snd

/-- Reads pieces separated by bars; a blank text has no flags. -/
def ofText? (s : String) : Option Flags :=
  if (Text.trim s.toList).isEmpty then some {}
  else ((Text.splitAt '|' s.toList).mapM fun p => piece? (Text.trim p)).map fun l => l.foldl union {}

end Flags

end VisualScript
