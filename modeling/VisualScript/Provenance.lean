import VisualScript.Graph.Merge
import VisualScript.OrderedMap

namespace VisualScript

/-- A node of an authored graph. -/
structure SourceRef where
  graph : String
  node : NodeId
deriving DecidableEq

def SourceRef.text (s : SourceRef) : String := s.graph ++ "#" ++ toString s.node

/-- Where a working node came from: the authored node it copies, or stands in for, and the authored
instances it was inlined through, outermost first. -/
structure Origin where
  source : SourceRef
  callSites : List SourceRef := []
  synthesized : Bool := false
deriving DecidableEq

namespace Origin

def callSite? (o : Origin) : Option SourceRef := o.callSites.head?

def depth (o : Origin) : Nat := o.callSites.length

/-- The origin of what the expansion of a node with origin `o` brings in. -/
def through (o : Origin) (source : SourceRef) (synthesized : Bool) : Origin :=
  ⟨source, o.callSites ++ [o.source], synthesized⟩

end Origin

/-- The origins of working nodes. -/
abbrev Provenance := OrderedMap NodeId Origin

namespace Provenance

def record (p : Provenance) (id : NodeId) (o : Origin) : Provenance := p.insert id o

/-- The copies of a whole authored graph. -/
def recordClone (p : Provenance) (map : CloneMap) (graph : String) : Provenance :=
  map.pairs.foldl (fun p c => p.record c.2 { source := ⟨graph, c.1⟩ }) p

/-- The origin of a node; one that is not recorded stands for itself in an unknown graph. -/
def originOrSelf (p : Provenance) (id : NodeId) : Origin :=
  match p.get? id with
  | some o => o
  | none => { source := ⟨"<unknown>", id⟩ }

/-- The copies of a body that takes the place of `site`. -/
def recordExpansion (p : Provenance) (map : CloneMap) (body : String) (site : NodeId) : Provenance :=
  let o := p.originOrSelf site
  map.pairs.foldl (fun p c => p.record c.2 (o.through ⟨body, c.1⟩ false)) p

/-- A node made while `site` is expanded. -/
def recordSynthesized (p : Provenance) (id site : NodeId) : Provenance :=
  let o := p.originOrSelf site
  p.record id (o.through o.source true)

/-- A node made on behalf of an origin. -/
def recordAlias (p : Provenance) (id : NodeId) (o : Origin) : Provenance :=
  p.record id { o with synthesized := true }

def forget (p : Provenance) (id : NodeId) : Provenance := p.erase id

def depth (p : Provenance) (id : NodeId) : Nat := match p.get? id with
  | some o => o.depth
  | none => 0

def callSites (p : Provenance) (id : NodeId) : List SourceRef := match p.get? id with
  | some o => o.callSites
  | none => []

def outermostCallSite? (p : Provenance) (id : NodeId) : Option SourceRef :=
  (p.get? id).bind Origin.callSite?

end Provenance

end VisualScript
