import VisualScript.Graph.Links

namespace VisualScript

/-- Nodes with their copies, in the authoring order of the sources. -/
structure CloneMap where
  pairs : List (NodeId × NodeId) := []

namespace CloneMap

def copy? (m : CloneMap) (source : NodeId) : Option NodeId :=
  (m.pairs.find? fun p => p.1 = source).map Prod.snd

def source? (m : CloneMap) (copy : NodeId) : Option NodeId :=
  (m.pairs.find? fun p => p.2 = copy).map Prod.fst

def copies (m : CloneMap) : List NodeId := m.pairs.map Prod.snd

end CloneMap

namespace Graph

variable {κ : Type}

/-- Copies nodes in the given order. -/
def copyNodes (g : Graph κ) : List (NodeId × Node κ) → CloneMap × Graph κ
  | [] => ({}, g)
  | (id, n) :: rest =>
      let (copy, g) := g.addNode n
      let (map, g) := copyNodes g rest
      (⟨(id, copy) :: map.pairs⟩, g)

/-- Copies the links whose two ends were copied. -/
def copyLinkList (map : CloneMap) (g : Graph κ) : List Link → Graph κ
  | [] => g
  | l :: rest =>
      match map.copy? l.source.node, map.copy? l.target.node with
      | some s, some t =>
          copyLinkList map (g.addLink ⟨s, l.source.index⟩ ⟨t, l.target.index⟩ l.role).2 rest
      | _, _ => copyLinkList map g rest

/-- Copies every node and link of another graph into this one, behind the nodes that are there. -/
def merge (g other : Graph κ) : CloneMap × Graph κ :=
  let (map, g) := g.copyNodes other.nodes
  (map, copyLinkList map g (other.links.mergeSort fun a b => a.id ≤ b.id))

/-- A copy in which ids and order keys count from zero. -/
def clone (g : Graph κ) : CloneMap × Graph κ := ({ name := g.name } : Graph κ).merge g

end Graph

end VisualScript
