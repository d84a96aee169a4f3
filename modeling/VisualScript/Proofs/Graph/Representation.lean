import VisualScript.Proofs.Graph.Copies
import VisualScript.Script.Shape

namespace VisualScript

theorem Port.is_iff {p : Port} {role : Role} {d : Direction} :
    p.is role d = true ↔ p.role = role ∧ p.direction = d := by
  simp only [Port.is, Bool.and_eq_true, decide_eq_true_eq]

namespace Graph

variable {κ : Type} {g g' : Graph κ} {ids : List NodeId} {a b : PortRef} {role : Role} {k : NodeId}

/-- A link of this role may lead from the one port to the other; ports and nodes are there. -/
structure Admits (g : Graph κ) (s t : PortRef) (role : Role) : Prop where
  source : ∃ p, g.port? s = some p ∧ p.is role .output = true
  target : ∃ p, g.port? t = some p ∧ p.is role .input = true
  apart : s.node ≠ t.node

theorem Admits.congr {s t : PortRef} (h : g.Admits s t role) (hs : g'.port? s = g.port? s)
    (ht : g'.port? t = g.port? t) : g'.Admits s t role := ⟨hs ▸ h.source, ht ▸ h.target, h.apart⟩

theorem exists_node_of_port? {p : PortRef} {port : Port} (h : g.port? p = some port) :
    ∃ n, g.node? p.node = some n :=
  let ⟨n, hn, _⟩ := Option.bind_eq_some_iff.mp h
  ⟨n, hn⟩

theorem linked_iff_ends : g.Linked a b ↔ (a, b) ∈ g.links.map Link.ends := by
  simp only [Linked, List.mem_map, Link.ends, Prod.mk.injEq]

/-- What every edit keeps up: links join ports of their role on two nodes, no two ports are linked
twice, and order keys are below the next one. -/
structure Sound (g : Graph κ) : Prop where
  tidy : g.Tidy
  joins : ∀ l ∈ g.links, g.Admits l.source l.target l.role
  simple : (g.links.map Link.ends).Nodup
  order_lt : ∀ {k : NodeId} {n : Node κ}, g.node? k = some n → n.order < g.nextOrder

theorem sound_empty (name : String) : ({ name } : Graph κ).Sound :=
  ⟨tidy_empty name, List.forall_mem_nil _, List.nodup_nil, fun h => absurd h (by simp [node?])⟩

theorem Sound.ofLinks (h : g.Sound) (htidy : g'.Tidy) (hslots : g'.slots = g.slots)
    (horder : g'.nextOrder = g.nextOrder) (hlinks : g'.links.Sublist g.links) : g'.Sound where
  tidy := htidy
  joins l hl := (h.joins l (hlinks.subset hl)).congr (port?_congr hslots _) (port?_congr hslots _)
  simple := h.simple.sublist (hlinks.map _)
  order_lt hn := horder ▸ h.order_lt (node?_congr hslots _ ▸ hn)

theorem Sound.live (h : g.Sound) {l : Link} (hl : l ∈ g.links) :
    (∃ n, g.node? l.source.node = some n) ∧ ∃ n, g.node? l.target.node = some n := by
  obtain ⟨⟨_, hs, -⟩, ⟨_, ht, -⟩, -⟩ := h.joins l hl
  exact ⟨exists_node_of_port? hs, exists_node_of_port? ht⟩

theorem Sound.contains_ends (h : g.Sound) {l : Link} (hl : l ∈ g.links) :
    g.contains l.source.node = true ∧ g.contains l.target.node = true :=
  (h.live hl).imp contains_iff.mpr contains_iff.mpr

variable (g) in
theorem removeLink_sublist (id : LinkId) : (g.removeLink id).links.Sublist g.links := by
  rw [removeLink]
  split
  · exact List.Sublist.refl _
  · exact List.filter_sublist

theorem Sound.removeLink (h : g.Sound) (id : LinkId) : (g.removeLink id).Sound :=
  h.ofLinks (h.tidy.removeLink id) (g.rewired_removeLink id).slots
    (g.rewired_removeLink id).nextOrder (g.removeLink_sublist id)

theorem Sound.disconnect (h : g.Sound) (p : PortRef) : (g.disconnect p).Sound := by
  rw [Graph.disconnect]
  induction g.edges p generalizing g with
  | nil => exact h
  | cons e rest ih => exact ih (h.removeLink e.1)

theorem Sound.disconnectPair (h : g.Sound) (a b : PortRef) : (g.disconnectPair a b).Sound := by
  rw [Graph.disconnectPair]
  split
  · exact h.removeLink _
  · exact h

theorem Sound.addLink (h : g.Sound) {source target : PortRef} (ha : g.Admits source target role)
    (hnew : ¬ g.Linked source target) : (g.addLink source target role).2.Sound where
  tidy := h.tidy.addLink source target role
  joins l hl := by
    rcases List.mem_cons.mp hl with rfl | hl
    · exact ha.congr rfl rfl
    · exact (h.joins l hl).congr rfl rfl
  simple := List.nodup_cons.mpr ⟨fun hm => hnew (linked_iff_ends.mpr hm), h.simple⟩
  order_lt hn := h.order_lt hn

theorem admits_of_checkLink {a b source target : PortRef}
    (h : g.checkLink a b = .ok (source, target, role)) : g.Admits source target role := by
  obtain ⟨ps, pt, hs, ht, hds, hdt, hrs, hrt, hapart, _⟩ := checkLink_cases h
  exact ⟨⟨ps, hs, Port.is_iff.mpr ⟨hrs, hds⟩⟩, ⟨pt, ht, Port.is_iff.mpr ⟨hrt, hdt⟩⟩, hapart⟩

theorem find?_edges_eq_none (h : g.Tidy) {source target : PortRef} (ha : g.Admits source target role) :
    (g.edges source).find? (fun e => e.2 = target) = none ↔ ¬ g.Linked source target := by
  obtain ⟨p, hp, hd⟩ := ha.source
  rw [← mem_farEnds_output h.unthreaded hp (Port.is_iff.mp hd).2, farEnds, List.mem_map,
    List.find?_eq_none]
  simp only [decide_eq_true_eq, not_exists, not_and]

theorem Sound.connect (h : g.Sound) {l : LinkId} (hc : g.connect a b = .ok (l, g')) : g'.Sound := by
  obtain ⟨source, target, role, hcheck, ⟨_, _, rfl⟩ | ⟨hnone, rfl⟩⟩ := connect_cases hc
  · exact h
  · have ha := admits_of_checkLink hcheck
    exact h.addLink ha ((find?_edges_eq_none h.tidy ha).mp hnone)

theorem Sound.connectAll (h : g.Sound) (p : PortRef) (far : List PortRef) :
    (g.connectAll p far).1.Sound := by
  induction far generalizing g with
  | nil => exact h
  | cons q rest ih =>
      rw [Graph.connectAll]
      split
      · exact h
      · next hc => exact ih (h.connect hc)

theorem connectAll_slots (g : Graph κ) (p : PortRef) (far : List PortRef) :
    (g.connectAll p far).1.slots = g.slots := by
  induction far generalizing g with
  | nil => rfl
  | cons q rest ih =>
      rw [Graph.connectAll]
      split
      · rfl
      · next hc => exact (ih _).trans (connect_slots hc)

theorem freshOrder_of_lt (h : ∀ {k : NodeId} {n : Node κ}, g.node? k = some n → n.order < g.nextOrder) :
    g.freshOrder = g.nextOrder := by
  rw [Graph.freshOrder]
  split
  · next h0 =>
      have hnone : g.stored = [] := List.eq_nil_iff_forall_not_mem.mpr fun x hx =>
        absurd (h (mem_stored.mp hx)) (by omega)
      rw [hnone, h0]
      rfl
  · rfl

theorem Sound.freshOrder (h : g.Sound) : g.freshOrder = g.nextOrder := freshOrder_of_lt h.order_lt

theorem Tidy.addNode_order_lt (ht : g.Tidy)
    (h : ∀ {k : NodeId} {n : Node κ}, g.node? k = some n → n.order < g.nextOrder) (n : Node κ)
    {m : Node κ} (hm : (g.addNode n).2.node? k = some m) : m.order < (g.addNode n).2.nextOrder := by
  change m.order < g.freshOrder + 1
  rw [ht.node?_addNode] at hm
  split at hm
  · cases hm
    exact Nat.lt_succ_self _
  · exact Nat.lt_succ_of_lt (freshOrder_of_lt h ▸ h hm)

theorem Sound.addNode (h : g.Sound) (n : Node κ) : (g.addNode n).2.Sound where
  tidy := h.tidy.addNode n
  joins l hl := by
    have hkeep {p : PortRef} (hp : ∃ port, g.port? p = some port) : (g.addNode n).2.port? p =
        g.port? p := by
      obtain ⟨port, hp⟩ := hp
      obtain ⟨m, hm⟩ := exists_node_of_port? hp
      have hne : p.node ≠ (g.addNode n).1 := fun he => by
        rw [he, h.tidy.addNode_fresh] at hm
        cases hm
      rw [port?, h.tidy.node?_addNode, if_neg hne, ← port?]
    have ha := h.joins l (h.tidy.addNode_links n ▸ hl)
    exact ha.congr (hkeep (ha.source.imp fun _ => And.left)) (hkeep (ha.target.imp fun _ => And.left))
  simple := h.tidy.addNode_links n ▸ h.simple
  order_lt := h.tidy.addNode_order_lt h.order_lt n

theorem removeNode_nextOrder (h : g.Tidy) (id : NodeId) : (g.removeNode id).nextOrder = g.nextOrder := by
  rw [removeNode, h.unthreaded]
  cases g.contains id <;> rfl

theorem removeNode_sublist (h : g.Tidy) (id : NodeId) : (g.removeNode id).links.Sublist g.links := by
  rw [removeNode, h.unthreaded]
  cases g.contains id
  · exact List.Sublist.refl _
  · exact List.filter_sublist

theorem Sound.removeNode (h : g.Sound) (id : NodeId) : (g.removeNode id).Sound where
  tidy := h.tidy.removeNode id
  joins l hl := by
    obtain ⟨hl, haway⟩ := (h.tidy.mem_links_removeNode id).mp hl
    have ha := h.joins l hl
    have hkeep {p : PortRef} (hp : ∃ port, g.port? p = some port)
        (hne : g.contains id = true → p.node ≠ id) :
        (g.removeNode id).port? p = g.port? p := by
      obtain ⟨port, hp⟩ := hp
      have hne : p.node ≠ id := fun he => hne (he ▸ contains_iff.mpr (exists_node_of_port? hp)) he
      rw [port?, node?_removeNode, if_neg hne, ← port?]
    exact ha.congr (hkeep (ha.source.imp fun _ => And.left) fun hc => (haway hc).1)
      (hkeep (ha.target.imp fun _ => And.left) fun hc => (haway hc).2)
  simple := h.simple.sublist ((removeNode_sublist h.tidy id).map _)
  order_lt {k n} hn := by
    rw [node?_removeNode] at hn
    split at hn
    · cases hn
    · exact removeNode_nextOrder h.tidy id ▸ h.order_lt hn

theorem Sound.copyNodes (h : g.Sound) (l : List (NodeId × Node κ)) : (g.copyNodes l).2.Sound := by
  induction l generalizing g with
  | nil => exact h
  | cons p rest ih => exact ih (h.addNode p.2)

theorem Sound.copyLinkList (h : g.Sound) {map : CloneMap} {links : List Link}
    (hadmits : ∀ l ∈ links, ∀ e, map.ends? l.ends = some e → g.Admits e.1 e.2 l.role ∧ ¬ g.Linked e.1 e.2)
    (hapart : ((links.map Link.ends).filterMap map.ends?).Nodup) : (copyLinkList map g links).Sound := by
  induction links generalizing g with
  | nil => exact h
  | cons l rest ih =>
      rw [List.map_cons] at hapart
      rw [Graph.copyLinkList]
      split
      · next s t hs ht =>
          have hends : map.ends? l.ends = some (⟨s, l.source.index⟩, ⟨t, l.target.index⟩) :=
            CloneMap.ends?_eq_some.mpr ⟨⟨hs, rfl⟩, ht, rfl⟩
          rw [List.filterMap_cons_some hends, List.nodup_cons] at hapart
          obtain ⟨ha, hnew⟩ := hadmits l List.mem_cons_self _ hends
          refine ih (h.addLink ha hnew) (fun l' hl' e he => ?_) hapart.2
          obtain ⟨ha', hnew'⟩ := hadmits l' (List.mem_cons_of_mem _ hl') e he
          refine ⟨ha'.congr rfl rfl, fun hl => ?_⟩
          rcases (linked_addLink _ _ _ _ _).mp hl with ⟨h1, h2⟩ | hl
          · have hsame : map.ends? l'.ends = some (⟨s, l.source.index⟩, ⟨t, l.target.index⟩) :=
              he.trans (congrArg some (Prod.ext h1 h2))
            exact hapart.1 (List.mem_filterMap.mpr ⟨l'.ends, List.mem_map_of_mem hl', hsame⟩)
          · exact hnew' hl
      · next hnone =>
          have hends : map.ends? l.ends = none := Option.eq_none_iff_forall_ne_some.mpr fun e he =>
            hnone _ _ (CloneMap.ends?_eq_some.mp he).1.1 (CloneMap.ends?_eq_some.mp he).2.1
          rw [List.filterMap_cons_none hends] at hapart
          exact ih h (fun l' hl' => hadmits l' (List.mem_cons_of_mem _ hl')) hapart

theorem Sound.merge (h : g.Sound) {other : Graph κ} (ho : other.Sound) : (g.merge other).2.Sound := by
  have hsort : (other.links.mergeSort fun a b => a.id ≤ b.id).Perm other.links := List.mergeSort_perm _ _
  have hnode {k : NodeId} : (g.merge other).2.node? k = (g.copyNodes other.nodes).2.node? k :=
    node?_congr (copyLinkList_slots ..) k
  -- A copied port is at the same place of the copied node.
  have hport {a b : PortRef} {p : Port} (hp : other.port? a = some p)
      (ha : (g.merge other).1.copy? a.node = some b.node) (hi : b.index = a.index) :
      (g.copyNodes other.nodes).2.port? b = some p := by
    obtain ⟨n, order, hn, hcopy⟩ := h.tidy.merge_copy? ha
    rw [port?, hn] at hp
    rw [port?, ← hnode, hcopy, hi]
    exact hp
  refine (h.copyNodes other.nodes).copyLinkList (fun l hl e he => ?_) ?_
  · obtain ⟨⟨hs, hi⟩, ht, hj⟩ := CloneMap.ends?_eq_some.mp he
    obtain ⟨⟨ps, hps, hds⟩, ⟨pt, hpt, hdt⟩, hapart⟩ := ho.joins l (hsort.mem_iff.mp hl)
    refine ⟨⟨⟨ps, hport hps hs hi, hds⟩, ⟨pt, hport hpt ht hj, hdt⟩, fun hsame => ?_⟩, fun hlinked => ?_⟩
    · exact hapart (h.tidy.merge_copy?_inj hs (hsame ▸ ht))
    · -- Links that were there start at nodes that were there.
      obtain ⟨l', hl', hsource, _⟩ := (Linked.congr (h.tidy.copyNodes_links other.nodes) _ _).mp hlinked
      obtain ⟨p, hp, _⟩ := (h.joins l' hl').source
      obtain ⟨n, hn⟩ := exists_node_of_port? hp
      rw [hsource, h.tidy.merge_fresh other (CloneMap.mem_copies hs)] at hn
      cases hn
  · have hends : ((other.links.map Link.ends).filterMap (g.merge other).1.ends?).Nodup :=
      ho.simple.filterMap fun _ _ _ he he' => h.tidy.merge_ends?_inj he he'
    exact ((hsort.map _).filterMap _).nodup_iff.mpr hends

/-- The nodes of the graph are listed by ascending order keys. -/
structure Listed (g : Graph κ) (ids : List NodeId) : Prop where
  mem : ∀ k, k ∈ ids ↔ ∃ n, g.node? k = some n
  ascending : ids.Pairwise fun a b => g.orderOf a < g.orderOf b

theorem orderOf_eq {n : Node κ} (h : g.node? k = some n) : g.orderOf k = n.order := by rw [orderOf, h]

theorem Listed.congr (h : g.Listed ids) (hslots : g'.slots = g.slots) : g'.Listed ids := by
  have horder : g'.orderOf = g.orderOf := funext fun k => by rw [orderOf, orderOf, node?_congr hslots]
  exact ⟨fun k => node?_congr hslots k ▸ h.mem k, horder ▸ h.ascending⟩

theorem Listed.nodup_orders (h : g.Listed ids) : (ids.map g.orderOf).Nodup :=
  List.pairwise_map.mpr (h.ascending.imp Nat.ne_of_lt)

theorem Listed.order_inj (h : g.Listed ids) {k k' : NodeId} {n n' : Node κ} (hn : g.node? k = some n)
    (hn' : g.node? k' = some n') (he : n.order = n'.order) : k = k' := by
  refine List.inj_on_of_nodup_map h.nodup_orders ((h.mem k).mpr ⟨n, hn⟩) ((h.mem k').mpr ⟨n', hn'⟩) ?_
  rw [orderOf_eq hn, orderOf_eq hn', he]

def Precedes (g : Graph κ) (a b : Nat) : Prop :=
  g.orderOf a < g.orderOf b ∨ g.orderOf a = g.orderOf b ∧ a ≤ b

theorem mem_nodeIds : k ∈ g.nodeIds ↔ ∃ n, g.node? k = some n := by
  rw [Graph.nodeIds, List.mem_map]
  exact ⟨fun ⟨x, hx, he⟩ => ⟨x.2, mem_nodes.mp (he ▸ hx)⟩, fun ⟨n, hn⟩ => ⟨(k, n), mem_nodes.mpr hn, rfl⟩⟩

theorem pairwise_nodeIds (g : Graph κ) : g.nodeIds.Pairwise g.Precedes := by
  have hnodes : g.nodes.Pairwise fun a b => authored a b = true :=
    List.pairwise_mergeSort authored_trans authored_total _
  refine List.pairwise_map.mpr (hnodes.imp_of_mem fun {a b} ha hb hab => ?_)
  rw [Precedes, orderOf_eq (mem_nodes.mp ha), orderOf_eq (mem_nodes.mp hb)]
  exact (authored_iff a.1 b.1 a.2 b.2).mp hab

theorem nodeIds_eq (hmem : ∀ k, k ∈ ids ↔ ∃ n, g.node? k = some n) (hnodup : ids.Nodup)
    (hsorted : ids.Pairwise g.Precedes) :
    g.nodeIds = ids := by
  have hperm : g.nodeIds.Perm ids :=
    (List.perm_ext_iff_of_nodup g.nodup_nodes hnodup).mpr fun k => mem_nodeIds.trans (hmem k).symm
  have hantisymm (a b : Nat) (hab : g.Precedes a b) (hba : g.Precedes b a) : a = b := by
    rw [Precedes] at hab hba
    omega
  exact hperm.eq_of_pairwise (fun a b _ _ => hantisymm a b) g.pairwise_nodeIds hsorted

theorem Listed.nodeIds (h : g.Listed ids) : g.nodeIds = ids :=
  nodeIds_eq h.mem (h.nodup_orders.of_map _) (h.ascending.imp Or.inl)

theorem Listed.addNode (h : g.Listed ids) (hg : g.Sound) (n : Node κ) :
    (g.addNode n).2.Listed (ids ++ [(g.addNode n).1]) := by
  have hne {k : NodeId} (hk : k ∈ ids) : k ≠ (g.addNode n).1 := fun he => by
    obtain ⟨m, hm⟩ := (h.mem k).mp hk
    rw [he, hg.tidy.addNode_fresh] at hm
    cases hm
  have hold {k : NodeId} (hk : k ∈ ids) : (g.addNode n).2.orderOf k = g.orderOf k := by
    rw [orderOf, orderOf, hg.tidy.node?_addNode, if_neg (hne hk)]
  have hnew : (g.addNode n).2.orderOf (g.addNode n).1 = g.nextOrder := by
    rw [orderOf, hg.tidy.node?_addNode, if_pos rfl, ← hg.freshOrder]
  constructor
  · intro k
    rw [List.mem_append, List.mem_singleton, h.mem, hg.tidy.node?_addNode]
    split
    · next he => simp [he]
    · next he => simp [he]
  · refine List.pairwise_append.mpr ⟨h.ascending.imp_of_mem fun ha hb hab => ?_,
      List.pairwise_singleton _ _, fun a ha b hb => ?_⟩
    · rwa [hold ha, hold hb]
    · obtain ⟨m, hm⟩ := (h.mem a).mp ha
      rw [List.mem_singleton.mp hb, hold ha, hnew, orderOf_eq hm]
      exact hg.order_lt hm

theorem Listed.removeNode (h : g.Listed ids) (id : NodeId) : (g.removeNode id).Listed (ids.erase id) := by
  have hnodup : ids.Nodup := h.nodup_orders.of_map _
  constructor
  · intro k
    rw [hnodup.mem_erase_iff, h.mem, node?_removeNode]
    split
    · next he => simp [he]
    · next he => simp [he]
  · refine (h.ascending.sublist List.erase_sublist).imp_of_mem fun {a b} ha hb hab => ?_
    rwa [orderOf, orderOf, node?_removeNode, node?_removeNode, if_neg (hnodup.mem_erase_iff.mp ha).1,
      if_neg (hnodup.mem_erase_iff.mp hb).1]

theorem Listed.copyNodes (h : g.Listed ids) (hg : g.Sound) (l : List (NodeId × Node κ)) :
    (g.copyNodes l).2.Listed (ids ++ (g.copyNodes l).1.copies) := by
  induction l generalizing g ids with
  | nil => exact (List.append_nil ids).symm ▸ h
  | cons p rest ih =>
      have hrest := ih (h.addNode hg p.2) (hg.addNode p.2)
      rw [List.append_assoc] at hrest
      exact hrest

theorem Listed.merge (h : g.Listed ids) (hg : g.Sound) {other : Graph κ} {sources : List NodeId}
    (ho : other.Listed sources) :
    (g.merge other).2.Listed (ids ++ sources.filterMap (g.merge other).1.copy?) := by
  have hcopies : sources.filterMap (g.merge other).1.copy? = (g.merge other).1.copies := by
    rw [← ho.nodeIds, ← g.merge_sources other, CloneMap.filterMap_copy? (g.nodup_merge_sources other)]
  rw [hcopies]
  exact (h.copyNodes hg other.nodes).congr (copyLinkList_slots ..)

/-- The graph after an attempt to link two ports. -/
def attempt (g : Graph κ) (a b : PortRef) : Graph κ := match g.connect a b with
  | .ok (_, g) => g
  | .error _ => g

/-- A graph that was built from nothing, with its nodes in the order they were added. Edits may fail on
the way; a move or a copy of links that fails leaves what it has done. -/
inductive Built : Graph κ → List NodeId → Prop
  | empty (name : String) : Built { name } []
  | addNode {g : Graph κ} {ids : List NodeId} (h : Built g ids) (n : Node κ) :
      Built (g.addNode n).2 (ids ++ [(g.addNode n).1])
  | removeNode {g : Graph κ} {ids : List NodeId} (h : Built g ids) (id : NodeId) :
      Built (g.removeNode id) (ids.erase id)
  | connect {g : Graph κ} {ids : List NodeId} (h : Built g ids) (a b : PortRef) : Built (g.attempt a b) ids
  | disconnect {g : Graph κ} {ids : List NodeId} (h : Built g ids) (p : PortRef) :
      Built (g.disconnect p) ids
  | disconnectPair {g : Graph κ} {ids : List NodeId} (h : Built g ids) (a b : PortRef) :
      Built (g.disconnectPair a b) ids
  | moveLinks {g : Graph κ} {ids : List NodeId} (h : Built g ids) (old new : PortRef) :
      Built (g.moveLinks old new).1 ids
  | copyLinks {g : Graph κ} {ids : List NodeId} (h : Built g ids) (old new : PortRef) :
      Built (g.copyLinks old new).1 ids
  | clone {g : Graph κ} {ids : List NodeId} (h : Built g ids) :
      Built g.clone.2 (ids.filterMap g.clone.1.copy?)
  | merge {g other : Graph κ} {ids sources : List NodeId} (h : Built g ids) (ho : Built other sources) :
      Built (g.merge other).2 (ids ++ sources.filterMap (g.merge other).1.copy?)

theorem attempt_of_error {e : GraphError} (h : g.connect a b = .error e) : g.attempt a b = g := by
  rw [attempt, h]

theorem attempt_cases (g : Graph κ) (a b : PortRef) :
    g.attempt a b = g ∨ ∃ l, g.connect a b = .ok (l, g.attempt a b) := by
  cases h : g.connect a b with
  | error e => exact Or.inl (attempt_of_error h)
  | ok r => exact Or.inr ⟨r.1, by rw [attempt, h]⟩

theorem listed_empty (name : String) : ({ name } : Graph κ).Listed [] :=
  ⟨fun k => by simp [node?], List.Pairwise.nil⟩

theorem disconnectPair_slots (g : Graph κ) (a b : PortRef) : (g.disconnectPair a b).slots = g.slots := by
  rw [disconnectPair]
  split
  · exact (g.rewired_removeLink _).slots
  · rfl

theorem Built.sound (h : Built g ids) : g.Sound ∧ g.Listed ids := by
  induction h with
  | empty name => exact ⟨sound_empty name, listed_empty name⟩
  | addNode _ n ih => exact ⟨ih.1.addNode n, ih.2.addNode ih.1 n⟩
  | removeNode _ id ih => exact ⟨ih.1.removeNode id, ih.2.removeNode id⟩
  | @connect g _ _ a b ih =>
      rcases g.attempt_cases a b with he | ⟨l, hc⟩
      · exact he.symm ▸ ih
      · exact ⟨ih.1.connect hc, ih.2.congr (connect_slots hc)⟩
  | @disconnect g _ _ p ih => exact ⟨ih.1.disconnect p, ih.2.congr (g.disconnect_slots p)⟩
  | @disconnectPair g _ _ a b ih =>
      exact ⟨ih.1.disconnectPair a b, ih.2.congr (g.disconnectPair_slots a b)⟩
  | @moveLinks g _ _ old new ih =>
      exact ⟨(ih.1.disconnect old).connectAll new _,
        ih.2.congr ((connectAll_slots ..).trans (g.disconnect_slots old))⟩
  | copyLinks _ old new ih => exact ⟨ih.1.connectAll new _, ih.2.congr (connectAll_slots ..)⟩
  | @clone g _ _ ih =>
      exact ⟨(sound_empty g.name).merge ih.1, (listed_empty g.name).merge (sound_empty g.name) ih.2⟩
  | merge _ _ ih iho => exact ⟨ih.1.merge iho.1, ih.2.merge ih.1 iho.2⟩

/-- Two ports that are on two nodes, of one role and on different sides. -/
def Linkable (g : Graph κ) (a b : PortRef) : Prop :=
  ∃ p q, g.port? a = some p ∧ g.port? b = some q ∧ a.node ≠ b.node ∧ p.role = q.role ∧
    p.direction ≠ q.direction

theorem checkLink_of_admits {s t : PortRef} (h : g.Admits s t role) :
    g.checkLink s t = .ok (s, t, role) ∧ g.checkLink t s = .ok (s, t, role) := by
  obtain ⟨⟨p, hp, hs⟩, ⟨q, hq, ht⟩, hapart⟩ := h
  obtain ⟨rfl, hpd⟩ := Port.is_iff.mp hs
  obtain ⟨hrole, hqd⟩ := Port.is_iff.mp ht
  simp [checkLink, hp, hq, hapart, Ne.symm hapart, hrole, hpd, hqd]

theorem checkLink_ok_iff : (∃ r, g.checkLink a b = .ok r) ↔ g.Linkable a b := by
  constructor
  · rintro ⟨⟨source, target, role⟩, h⟩
    obtain ⟨ps, pt, hs, ht, hds, hdt, hrs, hrt, hapart, ⟨rfl, rfl⟩ | ⟨rfl, rfl⟩⟩ := checkLink_cases h
    · exact ⟨ps, pt, hs, ht, hapart, hrs.trans hrt.symm, by simp [hds, hdt]⟩
    · exact ⟨pt, ps, ht, hs, Ne.symm hapart, hrt.trans hrs.symm, by simp [hds, hdt]⟩
  · rintro ⟨p, q, hp, hq, hapart, hrole, hdirection⟩
    cases hpd : p.direction <;> cases hqd : q.direction
    · exact absurd (hpd.trans hqd.symm) hdirection
    · have ha : g.Admits b a q.role :=
        ⟨⟨q, hq, Port.is_iff.mpr ⟨rfl, hqd⟩⟩, ⟨p, hp, Port.is_iff.mpr ⟨hrole, hpd⟩⟩, Ne.symm hapart⟩
      exact ⟨_, (checkLink_of_admits ha).2⟩
    · have ha : g.Admits a b p.role :=
        ⟨⟨p, hp, Port.is_iff.mpr ⟨rfl, hpd⟩⟩, ⟨q, hq, Port.is_iff.mpr ⟨hrole.symm, hqd⟩⟩, hapart⟩
      exact ⟨_, (checkLink_of_admits ha).1⟩
    · exact absurd (hpd.trans hqd.symm) hdirection

theorem connect_ok_iff : (∃ r, g.connect a b = .ok r) ↔ g.Linkable a b := by
  rw [← checkLink_ok_iff, Graph.connect]
  cases g.checkLink a b with
  | error e => simp
  | ok r =>
      simp only [Except.ok.injEq, exists_eq', iff_true]
      split
      · exact ⟨_, rfl⟩
      · exact ⟨_, rfl⟩

/-- Links are seen from both of their ends. -/
theorem Sound.mem_farEnds (h : g.Sound) {p q : PortRef} :
    q ∈ g.farEnds p ↔ g.Linked p q ∨ g.Linked q p := by
  have hsource {a b : PortRef} (hl : g.Linked a b) : ∃ port, g.port? a = some port ∧
      port.direction = .output := by
    obtain ⟨l, hl, rfl, rfl⟩ := hl
    obtain ⟨port, hp, hd⟩ := (h.joins l hl).source
    exact ⟨port, hp, (Port.is_iff.mp hd).2⟩
  have htarget {a b : PortRef} (hl : g.Linked a b) : ∃ port, g.port? b = some port ∧
      port.direction = .input := by
    obtain ⟨l, hl, rfl, rfl⟩ := hl
    obtain ⟨port, hp, hd⟩ := (h.joins l hl).target
    exact ⟨port, hp, (Port.is_iff.mp hd).2⟩
  cases hp : g.port? p with
  | none =>
      have hnone : q ∉ g.farEnds p := by simp [farEnds, edges, hp]
      refine iff_of_false hnone ?_
      rintro (hl | hl)
      · exact Option.some_ne_none _ ((hsource hl).choose_spec.1.symm.trans hp)
      · exact Option.some_ne_none _ ((htarget hl).choose_spec.1.symm.trans hp)
  | some port =>
      cases hd : port.direction with
      | output =>
          rw [mem_farEnds_output h.tidy.unthreaded hp hd]
          refine (or_iff_left fun hl => ?_).symm
          obtain ⟨port', hp', hd'⟩ := htarget hl
          cases hp.symm.trans hp'
          cases hd.symm.trans hd'
      | input =>
          rw [mem_farEnds_input h.tidy.unthreaded hp hd]
          refine (or_iff_right fun hl => ?_).symm
          obtain ⟨port', hp', hd'⟩ := hsource hl
          cases hp.symm.trans hp'
          cases hd.symm.trans hd'

/-- A pair that is linked keeps its link. -/
theorem Sound.connect_linked (h : g.Sound) (hl : b ∈ g.farEnds a) :
    ∃ l ∈ g.links, (l.ends = (a, b) ∨ l.ends = (b, a)) ∧ g.connect a b = .ok (l.id, g) := by
  have hfound {s t : PortRef} (hl : g.Linked s t) :
      ∃ l ∈ g.links, l.ends = (s, t) ∧ g.connect s t = .ok (l.id, g) ∧ g.connect t s = .ok (l.id, g) := by
    obtain ⟨l, hl, rfl, rfl⟩ := hl
    have ha := h.joins l hl
    obtain ⟨hst, hts⟩ := checkLink_of_admits ha
    obtain ⟨port, hp, hd⟩ := ha.source
    cases hf : (g.edges l.source).find? fun e => e.2 = l.target with
    | none => exact absurd ⟨l, hl, rfl, rfl⟩ ((find?_edges_eq_none h.tidy ha).mp hf)
    | some e =>
        obtain ⟨l', hl', hnear, rfl⟩ := (mem_edges h.tidy.unthreaded hp).mp (List.mem_of_find?_eq_some hf)
        have hfar : l'.far port.direction = l.target := by simpa using List.find?_some hf
        rw [(Port.is_iff.mp hd).2] at hnear hfar
        refine ⟨l', hl', Prod.ext hnear hfar, ?_, ?_⟩
        · simp only [Graph.connect, hst, hf]
        · simp only [Graph.connect, hts, hf]
  rcases h.mem_farEnds.mp hl with hl | hl
  · obtain ⟨l, hl, hends, hconnect, _⟩ := hfound hl
    exact ⟨l, hl, Or.inl hends, hconnect⟩
  · obtain ⟨l, hl, hends, _, hconnect⟩ := hfound hl
    exact ⟨l, hl, Or.inr hends, hconnect⟩

/-- A pair that is not linked gets a link of its own, under an id that is not in use. -/
theorem Sound.connect_unlinked (h : g.Sound) {i : LinkId} (hnew : b ∉ g.farEnds a)
    (hc : g.connect a b = .ok (i, g')) :
    ∃ l, l.id = i ∧ (l.ends = (a, b) ∨ l.ends = (b, a)) ∧ i ∉ g.links.map Link.id ∧
      g'.links = l :: g.links ∧
      g'.slots = g.slots := by
  have hnot : ¬ (g.Linked a b ∨ g.Linked b a) := mt h.mem_farEnds.mpr hnew
  have hslots := connect_slots hc
  obtain ⟨source, target, role, hcheck, hcases⟩ := connect_cases hc
  have ha := admits_of_checkLink hcheck
  obtain ⟨_, _, _, _, _, _, _, _, _, hends⟩ := checkLink_cases hcheck
  have hunlinked : ¬ g.Linked source target := by
    rcases hends with ⟨rfl, rfl⟩ | ⟨rfl, rfl⟩
    · exact fun hl => hnot (Or.inl hl)
    · exact fun hl => hnot (Or.inr hl)
  have hfind := (find?_edges_eq_none h.tidy ha).mpr hunlinked
  simp only [Graph.connect, hcheck, hfind, Except.ok.injEq] at hc
  have hid : (g.addLink source target role).1 = i := congrArg Prod.fst hc
  have hgraph : (g.addLink source target role).2 = g' := congrArg Prod.snd hc
  have hfresh := (List.nodup_append.mp (h.tidy.addLink source target role).ids_nodup).1
  refine ⟨⟨i, source, target, role⟩, rfl, ?_, ?_, ?_, hslots⟩
  · exact hends.imp (fun he => Prod.ext he.1 he.2) fun he => Prod.ext he.1 he.2
  · exact hid ▸ (List.nodup_cons.mp hfresh).1
  · rw [← hgraph, ← hid]
    rfl

/-- What can be relied on of a graph with its nodes in the order they were added. -/
structure Consistent (g : Graph κ) (ids : List NodeId) : Prop where
  joins : ∀ l ∈ g.links, g.Admits l.source l.target l.role
  simple : (g.links.map Link.ends).Nodup
  orders : ∀ {k k' : NodeId} {n n' : Node κ}, g.node? k = some n → g.node? k' = some n' →
    n.order = n'.order → k = k'
  order_lt : ∀ {k : NodeId} {n : Node κ}, g.node? k = some n → n.order < g.nextOrder
  nodeIds : g.nodeIds = ids
  symmetric : ∀ p q, q ∈ g.farEnds p ↔ p ∈ g.farEnds q
  connects : ∀ a b, (∃ r, g.connect a b = .ok r) ↔ g.Linkable a b
  linked : ∀ {a b : PortRef}, b ∈ g.farEnds a →
    ∃ l ∈ g.links, (l.ends = (a, b) ∨ l.ends = (b, a)) ∧ g.connect a b = .ok (l.id, g)
  unlinked : ∀ {a b : PortRef} {i : LinkId} {g' : Graph κ}, b ∉ g.farEnds a → g.connect a b = .ok (i, g') →
    ∃ l, l.id = i ∧ (l.ends = (a, b) ∨ l.ends = (b, a)) ∧ i ∉ g.links.map Link.id ∧
      g'.links = l :: g.links ∧
      g'.slots = g.slots
  refused : ∀ {a b : PortRef} {e : GraphError}, g.connect a b = .error e → g.attempt a b = g

/-- Whatever edits a graph was built by, it is consistent. -/
theorem built_consistent (h : Built g ids) : g.Consistent ids where
  joins := h.sound.1.joins
  simple := h.sound.1.simple
  orders := h.sound.2.order_inj
  order_lt := h.sound.1.order_lt
  nodeIds := h.sound.2.nodeIds
  symmetric _ _ := by rw [h.sound.1.mem_farEnds, h.sound.1.mem_farEnds, or_comm]
  connects _ _ := connect_ok_iff
  linked := h.sound.1.connect_linked
  unlinked := h.sound.1.connect_unlinked
  refused := attempt_of_error

/-- An entry that is removed and added again. It gets its id back, but then it is the last one. -/
def reopened : ScriptGraph :=
  let g := ((Graph.addNode { name := "open" } (ScriptNode.entry "open")).2.addNode
    (ScriptNode.call "push")).2
  ((g.removeNode 0).addNode (ScriptNode.entry "open")).2.attempt ⟨0, 0⟩ ⟨1, 0⟩

theorem reopened_consistent : reopened.Consistent [1, 0] :=
  built_consistent ((((((Built.empty "open").addNode _).addNode _).removeNode 0).addNode _).connect
    ⟨0, 0⟩ ⟨1, 0⟩)

end Graph

end VisualScript
