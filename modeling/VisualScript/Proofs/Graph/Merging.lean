import VisualScript.Proofs.Format.Arenas
import VisualScript.Proofs.Graph.Counting
import VisualScript.Proofs.Graph.Endurance

namespace VisualScript

def Link.bare (l : Link) : Link := { l with id := 0 }

/-- Where the copy of a link leads, without an id. -/
def CloneMap.image? (map : CloneMap) (l : Link) : Option Link :=
  (map.ends? l.ends).map fun e => ⟨0, e.1, e.2, l.role⟩

theorem CloneMap.image?_eq_some {map : CloneMap} {l l' : Link} (h : map.image? l = some l')
    (d : Direction) :
    map.copy? (l.near d).node = some (l'.near d).node ∧ (l'.near d).index = (l.near d).index ∧
      l'.role = l.role := by
  obtain ⟨e, he, rfl⟩ := Option.map_eq_some_iff.mp h
  obtain ⟨⟨hs, hi⟩, ht, hj⟩ := ends?_eq_some.mp he
  cases d with
  | output => exact ⟨hs, hi, rfl⟩
  | input => exact ⟨ht, hj, rfl⟩

theorem eraseDups_map_of_inj {f : Nat → Nat} (l : List Nat) (hf : ∀ a ∈ l, ∀ b ∈ l, f a = f b → a = b) :
    (l.map f).eraseDups = l.eraseDups.map f := by
  induction hn : l.length using Nat.strongRecOn generalizing l with
  | ind n ih =>
      cases l with
      | nil => rfl
      | cons a rest =>
          have hother : (rest.map f).filter (fun b => !b == f a) =
              (rest.filter fun b => !b == a).map f := by
            rw [List.filter_map]
            refine congrArg (List.map f) (List.filter_congr fun b hb => ?_)
            have hba : f b = f a ↔ b = a :=
              ⟨hf b (List.mem_cons_of_mem _ hb) a List.mem_cons_self, fun h => h ▸ rfl⟩
            simp only [Function.comp_apply, beq_eq_decide, hba]
          have hlength := List.length_filter_le (fun b => !b == a) rest
          rw [List.map_cons, List.eraseDups_cons, List.eraseDups_cons, List.map_cons, hother]
          rw [ih _ (by rw [List.length_cons] at hn; omega) _ (fun b hb c hc => ?_) rfl]
          exact hf b (List.mem_cons_of_mem _ (List.mem_of_mem_filter hb)) c
            (List.mem_cons_of_mem _ (List.mem_of_mem_filter hc))

namespace Graph

variable {κ : Type} {g other : Graph κ}

/-- Every link joins two nodes, and always did: the graph is as it was read, or no link was at a
vacant id when it was. -/
structure Intact (g : Graph κ) : Prop where
  origin : g.threads = none ∨ g.Read
  joins : ∀ l ∈ g.links, g.contains l.source.node = true ∧ g.contains l.target.node = true

theorem Intact.unthreaded (h : g.Intact) : g.threads = none :=
  h.origin.elim (fun hnone => hnone) fun hread => (hread.tidy h.joins).1.unthreaded

theorem Intact.live (h : g.Intact) {l : Link} (hl : l ∈ g.links) (d : Direction) :
    ∃ n, g.node? (l.near d).node = some n := by
  cases d with
  | output => exact contains_iff.mp (h.joins l hl).1
  | input => exact contains_iff.mp (h.joins l hl).2

/-- Other graphs can be copied into this one: it is as it was read, or as edits leave a graph, and
later order keys are free. -/
structure Ready (g : Graph κ) : Prop where
  origin : (g.Tidy ∧ g.torn = false) ∨ g.Read
  joins : ∀ l ∈ g.links, g.contains l.source.node = true ∧ g.contains l.target.node = true
  order_lt : ∀ {k : NodeId} {n : Node κ}, g.node? k = some n → n.order < g.nextOrder

theorem Ready.tidy (h : g.Ready) : g.Tidy := h.origin.elim And.left fun hread => (hread.tidy h.joins).1

theorem Ready.whole (h : g.Ready) :
    g.torn = false := h.origin.elim And.right fun hread => (hread.tidy h.joins).2

theorem Ready.intact (h : g.Ready) : g.Intact := ⟨Or.inl h.tidy.unthreaded, h.joins⟩

/-- The copies get the next order keys. -/
theorem Tidy.copyNodes_orders (h : g.Tidy)
    (horder : ∀ {k : NodeId} {n : Node κ}, g.node? k = some n → n.order < g.nextOrder)
    (l : List (NodeId × Node κ)) :
    (g.copyNodes l).2.nextOrder = g.nextOrder + l.length ∧
      (g.copyNodes l).1.copies.map (g.copyNodes l).2.orderOf = List.range' g.nextOrder l.length := by
  induction l generalizing g with
  | nil => exact ⟨rfl, rfl⟩
  | cons p rest ih =>
      have hnext : (g.addNode p.2).2.nextOrder = g.nextOrder + 1 :=
        congrArg (· + 1) (freshOrder_of_lt horder)
      obtain ⟨hlast, horders⟩ := ih (h.addNode p.2) (h.addNode_order_lt horder p.2)
      rw [hnext] at hlast horders
      have hnode : (g.addNode p.2).2.node? (g.addNode p.2).1 =
          some { p.2 with order := g.freshOrder } := by
        rw [h.node?_addNode, if_pos rfl]
      have hold : (g.addNode p.2).1 ∉ ((g.addNode p.2).2.copyNodes rest).1.copies := fun hm => by
        rw [((h.addNode p.2).copyNodes_fresh rest).1 _ hm] at hnode
        cases hnode
      have hfirst : ((g.addNode p.2).2.copyNodes rest).2.orderOf (g.addNode p.2).1 = g.nextOrder := by
        rw [orderOf_eq ((((h.addNode p.2).copyNodes_fresh rest).2 _ hold).trans hnode)]
        exact freshOrder_of_lt horder
      refine ⟨?_, ?_⟩
      · change ((g.addNode p.2).2.copyNodes rest).2.nextOrder = _
        rw [hlast, List.length_cons]
        omega
      · change ((g.addNode p.2).2.copyNodes rest).2.orderOf (g.addNode p.2).1 :: _ = _
        rw [hfirst, List.length_cons, List.range'_succ, ← horders]
        rfl

theorem copyNodes_ids (hthreads : g.threads = none) (hvacant : g.vacant = [])
    (l : List (NodeId × Node κ)) :
    (g.copyNodes l).1.copies = List.range' g.slots.length l.length := by
  induction l generalizing g with
  | nil => rfl
  | cons p rest ih =>
      have hplace (n : Node κ) : g.place n =
          (g.slots.length, { g with slots := g.slots ++ [some n] }) := by
        rw [place, hthreads, hvacant]
      have hid : (g.addNode p.2).1 = g.slots.length := congrArg Prod.fst (hplace _)
      have hslots : (g.addNode p.2).2.slots.length = g.slots.length + 1 := by
        rw [Graph.addNode, hplace]
        exact List.length_append
      have hrest := ih (g := (g.addNode p.2).2) (by rw [Graph.addNode, hplace]; exact hthreads)
        (by rw [Graph.addNode, hplace]; exact hvacant)
      rw [hslots] at hrest
      change (g.addNode p.2).1 :: ((g.addNode p.2).2.copyNodes rest).1.copies = _
      rw [hrest, hid, List.length_cons, List.range'_succ]

/-- The copies of links stand before the links that were there, the last one first. -/
theorem copyLinkList_links (map : CloneMap) (links : List Link) :
    ∃ new, (copyLinkList map g links).links = new ++ g.links ∧
      new.map Link.bare = (links.filterMap map.image?).reverse := by
  induction links generalizing g with
  | nil => exact ⟨[], rfl, rfl⟩
  | cons l rest ih =>
      rw [copyLinkList]
      split
      · next s t hs ht =>
          have himage : map.image? l = some ⟨0, ⟨s, l.source.index⟩, ⟨t, l.target.index⟩, l.role⟩ := by
            have hends : map.ends? l.ends = some (⟨s, l.source.index⟩, ⟨t, l.target.index⟩) :=
              CloneMap.ends?_eq_some.mpr ⟨⟨hs, rfl⟩, ht, rfl⟩
            rw [CloneMap.image?, hends]
            rfl
          obtain ⟨new, hlinks, hnew⟩ :=
            ih (g := (g.addLink ⟨s, l.source.index⟩ ⟨t, l.target.index⟩ l.role).2)
          refine ⟨new ++ [⟨g.vacantLinks.headD g.linkBound, ⟨s, l.source.index⟩,
            ⟨t, l.target.index⟩, l.role⟩], ?_, ?_⟩
          · rw [hlinks, List.append_assoc]
            rfl
          · rw [List.map_append, hnew, List.filterMap_cons_some himage, List.reverse_cons]
            rfl
      · next hnone =>
          have himage : map.image? l = none := by
            rw [CloneMap.image?, Option.map_eq_none_iff]
            exact Option.eq_none_iff_forall_ne_some.mpr fun e he =>
              hnone _ _ (CloneMap.ends?_eq_some.mp he).1.1 (CloneMap.ends?_eq_some.mp he).2.1
          rw [List.filterMap_cons_none himage]
          exact ih

theorem merge_node? (g other : Graph κ) (k : NodeId) :
    (g.merge other).2.node? k = (g.copyNodes other.nodes).2.node? k :=
  node?_congr (copyLinkList_slots ..) k

theorem Ready.merge_orders (h : g.Ready) (other : Graph κ) :
    (g.merge other).2.nextOrder = g.nextOrder + other.nodeCount ∧
      (g.merge other).1.copies.map (g.merge other).2.orderOf =
        List.range' g.nextOrder other.nodeCount := by
  obtain ⟨hnext, horders⟩ := h.tidy.copyNodes_orders h.order_lt other.nodes
  have horder : (g.merge other).2.orderOf = (g.copyNodes other.nodes).2.orderOf := funext fun k => by
    rw [orderOf, orderOf, merge_node?]
  rw [← length_nodeIds, nodeIds, List.length_map, horder]
  exact ⟨(rewired_copyLinkList ..).nextOrder.trans hnext, horders⟩

theorem Ready.merge_ruined (h : g.Ready) (hroom : g.nextOrder + other.nodeCount < 4294967296) :
    (g.merge other).2.ruined = false := by
  have htorn : (g.merge other).2.torn = false := ((Endures.refl h.tidy).merge other).torn.trans h.whole
  rw [ruined, exhausted, (h.merge_orders other).1, htorn, Bool.or_false, decide_eq_false_iff_not]
  omega

theorem Ready.merge_kept (h : g.Ready) (other : Graph κ) {k : NodeId} {n : Node κ}
    (hn : g.node? k = some n) :
    k ∉ (g.merge other).1.copies ∧ (g.merge other).2.node? k = some n := by
  have hk : k ∉ (g.merge other).1.copies := fun hm => by
    rw [h.tidy.merge_fresh other hm] at hn
    cases hn
  exact ⟨hk, (h.tidy.node?_merge other hk).trans hn⟩

/-- The copies come behind all nodes that were there. -/
theorem Ready.merge_nodeIds (h : g.Ready) (other : Graph κ) :
    (g.merge other).2.nodeIds = g.nodeIds ++ (g.merge other).1.copies := by
  have horders := (h.merge_orders other).2
  have hcopy {k : NodeId} (hk : k ∈ (g.merge other).1.copies) : g.nextOrder ≤
      (g.merge other).2.orderOf k := by
    have hmem := List.mem_map_of_mem (f := (g.merge other).2.orderOf) hk
    rw [horders] at hmem
    exact (List.mem_range'_1.mp hmem).1
  have hhost {k : NodeId} (hk : k ∈ g.nodeIds) : (g.merge other).2.orderOf k = g.orderOf k ∧
      g.orderOf k < g.nextOrder := by
    obtain ⟨n, hn⟩ := mem_nodeIds.mp hk
    rw [orderOf_eq hn, orderOf_eq (h.merge_kept other hn).2]
    exact ⟨rfl, h.order_lt hn⟩
  refine nodeIds_eq (fun k => ?_) ?_ ?_
  · rw [List.mem_append, mem_nodeIds]
    constructor
    · rintro (⟨n, hn⟩ | hk)
      · exact ⟨n, (h.merge_kept other hn).2⟩
      · obtain ⟨p, hp, rfl⟩ := List.mem_map.mp hk
        obtain ⟨n, order, _, hn⟩ := h.tidy.mem_merge (s := p.1) (k := p.2) hp
        exact ⟨_, hn⟩
    · rintro ⟨n, hn⟩
      by_cases hk : k ∈ (g.merge other).1.copies
      · exact Or.inr hk
      · exact Or.inl ⟨n, (h.tidy.node?_merge other hk).symm.trans hn⟩
  · refine List.nodup_append.mpr ⟨g.nodup_nodes, h.tidy.nodup_merge other, fun a ha b hb he => ?_⟩
    obtain ⟨n, hn⟩ := mem_nodeIds.mp ha
    exact (h.merge_kept other hn).1 (he ▸ hb)
  · refine List.pairwise_append.mpr ⟨g.pairwise_nodeIds.imp_of_mem fun {a b} ha hb hab => ?_, ?_,
      fun a ha b hb => ?_⟩
    · rwa [Precedes, (hhost ha).1, (hhost hb).1]
    · have hascending := List.pairwise_lt_range' (s := g.nextOrder) (n := other.nodeCount) 1
      rw [← horders] at hascending
      exact (List.pairwise_map.mp hascending).imp Or.inl
    · have := hcopy hb
      have := hhost ha
      exact Or.inl (by omega)

theorem Tidy.merge_links (h : g.Tidy) (other : Graph κ) : ∃ new, (g.merge other).2.links = new ++ g.links ∧
    (new.map Link.bare).Perm (other.links.filterMap (g.merge other).1.image?) := by
  obtain ⟨new, hlinks, hnew⟩ := copyLinkList_links (g := (g.copyNodes other.nodes).2) (g.merge other).1
    (other.links.mergeSort fun a b => a.id ≤ b.id)
  rw [h.copyNodes_links] at hlinks
  refine ⟨new, hlinks, ?_⟩
  rw [hnew]
  exact (List.reverse_perm _).trans ((List.mergeSort_perm _ _).filterMap _)

theorem Intact.exists_image? (ho : other.Intact) (g : Graph κ) {l : Link} (hl : l ∈ other.links) :
    ∃ l', (g.merge other).1.image? l = some l' := by
  have hcopy (d : Direction) : ∃ k, (g.merge other).1.copy? (l.near d).node = some k := by
    obtain ⟨n, hn⟩ := ho.live hl d
    exact g.exists_merge_copy? hn
  obtain ⟨s, hs⟩ := hcopy .output
  obtain ⟨t, ht⟩ := hcopy .input
  have hends : (g.merge other).1.ends? l.ends = some (⟨s, l.source.index⟩, ⟨t, l.target.index⟩) :=
    CloneMap.ends?_eq_some.mpr ⟨⟨hs, rfl⟩, ht, rfl⟩
  exact ⟨_, by rw [CloneMap.image?, hends]; rfl⟩

theorem Neighbour.le_iff (p p' : UInt16) (o o' n n' : Nat) : Neighbour.le ⟨p, o, n⟩ ⟨p', o', n'⟩ = true ↔
    p.toNat < p'.toNat ∨ p.toNat = p'.toNat ∧ (o < o' ∨ o = o' ∧ n ≤ n') := by
  simp only [Neighbour.le, Bool.or_eq_true, Bool.and_eq_true, decide_eq_true_eq,
    UInt16.lt_iff_toNat_lt, ← UInt16.toNat_inj]

theorem Neighbour.le_trans (a b c : Neighbour) (hab : a.le b = true) (hbc : b.le c = true) :
    a.le c = true := by
  rw [le_iff] at *
  omega

theorem Neighbour.le_total (a b : Neighbour) : (a.le b || b.le a) = true := by
  rw [Bool.or_eq_true, le_iff, le_iff]
  omega

theorem Neighbour.le_antisymm (a b : Neighbour) (hab : a.le b = true) (hba : b.le a = true) : a = b := by
  obtain ⟨p, o, n⟩ := a
  obtain ⟨p', o', n'⟩ := b
  rw [le_iff] at hab hba
  obtain ⟨hport, horder, hnode⟩ : p.toNat = p'.toNat ∧ o = o' ∧ @Eq Nat n n' := by omega
  rw [UInt16.toNat_inj.mp hport, horder, hnode]

theorem distinct_perm {l l' : List Neighbour} (h : l.Perm l') : distinct l = distinct l' := by
  have hsort : l.mergeSort Neighbour.le = l'.mergeSort Neighbour.le := by
    refine List.Perm.eq_of_pairwise (fun a b _ _ => Neighbour.le_antisymm a b)
      (List.pairwise_mergeSort Neighbour.le_trans Neighbour.le_total l)
      (List.pairwise_mergeSort Neighbour.le_trans Neighbour.le_total l') ?_
    exact ((List.mergeSort_perm l _).trans h).trans (List.mergeSort_perm l' _).symm
  rw [distinct, distinct, hsort]

theorem distinct_map {l : List Neighbour} {f : Neighbour → Neighbour} {name : NodeId → NodeId}
    (hle : ∀ a ∈ l, ∀ b ∈ l, a.le b = (f a).le (f b)) (hname : ∀ a ∈ l, (f a).node = name a.node)
    (hinj : ∀ a ∈ l, ∀ b ∈ l, name a.node = name b.node → a.node = b.node) :
    distinct (l.map f) = (distinct l).map name := by
  have hnodes : ((l.mergeSort Neighbour.le).map f).map Neighbour.node =
      ((l.mergeSort Neighbour.le).map Neighbour.node).map name := by
    rw [List.map_map, List.map_map]
    exact List.map_congr_left fun a ha => hname a (List.mem_mergeSort.mp ha)
  rw [distinct, distinct, ← List.map_mergeSort hle, hnodes]
  refine eraseDups_map_of_inj _
    (List.forall_mem_map.mpr fun a ha => List.forall_mem_map.mpr fun b hb => ?_)
  exact hinj a (List.mem_mergeSort.mp ha) b (List.mem_mergeSort.mp hb)

def neighbour (g : Graph κ) (d : Direction) (l : Link) : Neighbour :=
  ⟨(l.near d).index, g.orderOf (l.far d).node, (l.far d).node⟩

def isAt (d : Direction) (id : NodeId) (role : Role) (l : Link) : Bool :=
  (l.near d).node = id && l.role = role

theorem neighbours_eq (ht : g.threads = none) {id : NodeId} (hc : g.contains id = true)
    (role : Role) (d : Direction) :
    g.neighbours id role d = (g.links.filter (isAt d id role)).map (g.neighbour d) := by
  rw [neighbours, if_pos hc, linksAt, ht, List.filter_filter]
  refine congrArg (List.map _) (List.filter_congr fun l _ => ?_)
  exact Bool.and_comm _ _

theorem filter_bare (g : Graph κ) (d : Direction) (id : NodeId) (role : Role) (l : List Link) :
    (l.filter (isAt d id role)).map (g.neighbour d) =
      ((l.map Link.bare).filter (isAt d id role)).map (g.neighbour d) := by
  rw [List.filter_map, List.map_map]
  rfl

/-- Copies precede each other as their sources do. -/
theorem Ready.merge_precedes (h : g.Ready) {x y kx ky : NodeId}
    (hx : (g.merge other).1.copy? x = some kx) (hy : (g.merge other).1.copy? y = some ky) :
    other.Precedes x y ↔ (g.merge other).2.Precedes kx ky := by
  have hpairs : (g.merge other).1.pairs.Pairwise fun p q =>
      other.Precedes p.1 q.1 ∧ (g.merge other).2.orderOf p.2 < (g.merge other).2.orderOf q.2 := by
    have hsources := other.pairwise_nodeIds
    rw [← g.merge_sources other] at hsources
    have hcopies := List.pairwise_lt_range' (s := g.nextOrder) (n := other.nodeCount) 1
    rw [← (h.merge_orders other).2, CloneMap.copies, List.map_map] at hcopies
    exact (List.pairwise_map.mp hsources).and (List.pairwise_map.mp hcopies)
  have hself (k : NodeId) (g : Graph κ) : g.Precedes k k := Or.inr ⟨rfl, Nat.le_refl k⟩
  obtain ⟨i, hi, hxi⟩ := List.getElem_of_mem ((CloneMap.copy?_eq_some (g.nodup_merge_sources other)).mp hx)
  obtain ⟨j, hj, hyj⟩ := List.getElem_of_mem ((CloneMap.copy?_eq_some (g.nodup_merge_sources other)).mp hy)
  have hbefore := List.pairwise_iff_getElem.mp hpairs
  rcases Nat.lt_trichotomy i j with hij | rfl | hij
  · have hxy := hbefore i j hi hj hij
    rw [hxi, hyj] at hxy
    exact iff_of_true hxy.1 (Or.inl hxy.2)
  · cases hxi.symm.trans hyj
    exact iff_of_true (hself x other) (hself kx _)
  · have hyx := hbefore j i hj hi hij
    rw [hxi, hyj] at hyx
    refine iff_of_false (fun hxy => ?_) fun hxy => ?_
    · have hsame : @Eq Nat x y := by
        have hyx := hyx.1
        simp only [Precedes] at hxy hyx
        omega
      rw [hsame] at hx
      cases hx.symm.trans hy
      exact Nat.lt_irrefl _ hyx.2
    · have hyx : (g.merge other).2.orderOf ky < (g.merge other).2.orderOf kx := hyx.2
      simp only [Precedes] at hxy
      omega

/-- A neighbour under the name that it has among the copies. -/
def renamed (map : CloneMap) (g : Graph κ) (a : Neighbour) : Neighbour :=
  ⟨a.port, g.orderOf ((map.copy? a.node).getD 0), (map.copy? a.node).getD 0⟩

/-- Some neighbours of a copy, by the links that were copied. -/
theorem Tidy.map_neighbour_image (h : g.Tidy) {s k : NodeId}
    (hk : (g.merge other).1.copy? s = some k) (role : Role) (d : Direction) {links : List Link}
    (himage : ∀ l ∈ links, ∃ l', (g.merge other).1.image? l = some l') :
    ((links.filterMap (g.merge other).1.image?).filter (isAt d k role)).map
      ((g.merge other).2.neighbour d) =
      ((links.filter (isAt d s role)).map (other.neighbour d)).map
        (renamed (g.merge other).1 (g.merge other).2) := by
  induction links with
  | nil => rfl
  | cons l rest ih =>
      obtain ⟨l', hl'⟩ := himage l List.mem_cons_self
      obtain ⟨hnear, hindex, hrole⟩ := CloneMap.image?_eq_some hl' d
      obtain ⟨hfar, _, _⟩ := CloneMap.image?_eq_some hl' d.opposite
      have hat : isAt d k role l' = isAt d s role l := by
        have hnode : (l'.near d).node = k ↔ (l.near d).node = s := by
          constructor
          · rintro rfl
            exact h.merge_copy?_inj hnear hk
          · intro he
            rw [he] at hnear
            exact Option.some.inj (hnear.symm.trans hk)
        rw [isAt, isAt, hrole, decide_eq_decide.mpr hnode]
      have hneighbour : (g.merge other).2.neighbour d l' =
          renamed (g.merge other).1 (g.merge other).2 (other.neighbour d l) := by
        have hname : ((g.merge other).1.copy? (l.far d).node).getD 0 = (l'.far d).node :=
          congrArg (Option.getD · 0) hfar
        rw [renamed, neighbour, neighbour, hindex, hname]
      have ih := ih fun l hl => himage l (List.mem_cons_of_mem _ hl)
      rw [List.filterMap_cons_some hl', List.filter_cons, List.filter_cons, hat]
      split
      · rw [List.map_cons, List.map_cons, List.map_cons, hneighbour, ih]
      · exact ih

/-- The neighbours of a copy are the copies of the neighbours of its source, in the same order. -/
theorem Ready.merge_distinct (h : g.Ready) (ho : other.Intact) {s k : NodeId}
    (hk : (g.merge other).1.copy? s = some k) (role : Role) (d : Direction) :
    (distinct ((g.merge other).2.neighbours k role d)).map some =
      (distinct (other.neighbours s role d)).map (g.merge other).1.copy? := by
  obtain ⟨n, order, hs, hn⟩ := h.tidy.merge_copy? hk
  obtain ⟨new, hlinks, hnew⟩ := h.tidy.merge_links other
  have hcontains : (g.merge other).2.contains k = true := contains_iff.mpr ⟨_, hn⟩
  -- Among the links at a copy there is none of those that were there before.
  have hhost : g.links.filter (isAt d k role) = [] := List.filter_eq_nil_iff.mpr fun l hl hat => by
    obtain ⟨m, hm⟩ := h.intact.live hl d
    have hnode : (l.near d).node = k := of_decide_eq_true (Bool.and_eq_true_iff.mp hat).1
    rw [hnode, h.tidy.merge_fresh other (CloneMap.mem_copies hk)] at hm
    cases hm
  have hperm : ((g.merge other).2.neighbours k role d).Perm
      ((other.neighbours s role d).map (renamed (g.merge other).1 (g.merge other).2)) := by
    rw [neighbours_eq (h.tidy.merge other).unthreaded hcontains,
      neighbours_eq ho.unthreaded (contains_iff.mpr ⟨n, hs⟩),
      hlinks, List.filter_append, hhost, List.append_nil, filter_bare,
      ← h.tidy.map_neighbour_image hk role d fun l hl => ho.exists_image? g hl]
    exact (hnew.filter _).map _
  have hfound {a : Neighbour} (ha : a ∈ other.neighbours s role d) :
      a.order = other.orderOf a.node ∧ ∃ c, (g.merge other).1.copy? a.node = some c := by
    rw [neighbours_eq ho.unthreaded (contains_iff.mpr ⟨n, hs⟩)] at ha
    obtain ⟨l, hl, rfl⟩ := List.mem_map.mp ha
    obtain ⟨m, hm⟩ := ho.live (List.mem_of_mem_filter hl) d.opposite
    exact ⟨rfl, g.exists_merge_copy? hm⟩
  have hrenamed : distinct
      ((other.neighbours s role d).map (renamed (g.merge other).1 (g.merge other).2)) =
      (distinct (other.neighbours s role d)).map fun id => ((g.merge other).1.copy? id).getD 0 := by
    refine distinct_map (fun a ha b hb => ?_) (fun a _ => rfl) fun a ha b hb hab => ?_
    · obtain ⟨hoa, ca, hca⟩ := hfound ha
      obtain ⟨hob, cb, hcb⟩ := hfound hb
      have hprecedes := h.merge_precedes hca hcb
      rw [Precedes, ← hoa, ← hob, Precedes] at hprecedes
      rw [Bool.eq_iff_iff, Neighbour.le_iff, renamed, renamed, hca, hcb, Neighbour.le_iff,
        Option.getD_some, Option.getD_some]
      exact or_congr_right (and_congr_right fun _ => hprecedes)
    · obtain ⟨_, ca, hca⟩ := hfound ha
      obtain ⟨_, cb, hcb⟩ := hfound hb
      rw [hca, hcb] at hab
      exact h.tidy.merge_copy?_inj hca (hcb.trans (congrArg some hab.symm))
  rw [distinct_perm hperm, hrenamed, List.map_map]
  refine List.map_congr_left fun id hid => ?_
  rw [distinct, List.mem_eraseDups] at hid
  obtain ⟨a, ha, rfl⟩ := List.mem_map.mp hid
  obtain ⟨_, c, hc⟩ := hfound (List.mem_mergeSort.mp ha)
  rw [Function.comp_apply, hc, Option.getD_some]

/-- The other graph stands in the second one as a copy, beside and apart from all of the first. -/
structure Merged (g other : Graph κ) (map : CloneMap) (g' : Graph κ) : Prop where
  usable : g'.ruined = false
  sources : map.pairs.map Prod.fst = other.nodeIds
  injective : map.copies.Nodup
  fresh : ∀ k ∈ map.copies, g.node? k = none
  copied : ∀ {s k : NodeId}, map.copy? s = some k →
    ∃ n order, other.node? s = some n ∧ g'.node? k = some { n with order }
  kept : ∀ {k : NodeId} {n : Node κ}, g.node? k = some n → g'.node? k = some n
  nodeIds : g'.nodeIds = g.nodeIds ++ map.copies
  images : ((g'.links.filter fun l => l.source.node ∈ map.copies).map fun l => some l.bare).Perm
    (other.links.map map.image?)
  hosted : (g'.links.filter fun l => l.source.node ∉ map.copies) = g.links
  apart : ∀ l ∈ g'.links, l.source.node ∈ map.copies ↔ l.target.node ∈ map.copies
  successors : ∀ {s k : NodeId}, map.copy? s = some k → ∀ role,
    (g'.successors k role).map some = (other.successors s role).map map.copy?
  predecessors : ∀ {s k : NodeId}, map.copy? s = some k → ∀ role,
    (g'.predecessors k role).map some = (other.predecessors s role).map map.copy?

theorem Ready.merged (h : g.Ready) (ho : other.Intact)
    (hroom : g.nextOrder + other.nodeCount < 4294967296) :
    Merged g other (g.merge other).1 (g.merge other).2 := by
  obtain ⟨new, hlinks, hnew⟩ := h.tidy.merge_links other
  have hhost : ∀ l ∈ g.links, ∀ d, (l.near d).node ∉ (g.merge other).1.copies := fun l hl d => by
    obtain ⟨n, hn⟩ := h.intact.live hl d
    exact (h.merge_kept other hn).1
  have hcopy : ∀ l ∈ new, ∀ d, (l.near d).node ∈ (g.merge other).1.copies := fun l hl d => by
    obtain ⟨l', _, himage⟩ := List.mem_filterMap.mp (hnew.mem_iff.mp (List.mem_map_of_mem hl))
    exact CloneMap.mem_copies (CloneMap.image?_eq_some himage d).1
  have himages : (other.links.filterMap (g.merge other).1.image?).map some =
      other.links.map (g.merge other).1.image? := by
    rw [List.map_filterMap_some_eq_filter_map_isSome, List.filter_eq_self]
    refine List.forall_mem_map.mpr fun l hl => ?_
    obtain ⟨l', hl'⟩ := ho.exists_image? g hl
    rw [hl', Option.isSome_some]
  exact {
    usable := h.merge_ruined hroom
    sources := g.merge_sources other
    injective := h.tidy.nodup_merge other
    fresh := fun k hk => h.tidy.merge_fresh other hk
    copied := h.tidy.merge_copy?
    kept := fun hn => (h.merge_kept other hn).2
    nodeIds := h.merge_nodeIds other
    images := by
      have hold : g.links.filter (fun l => decide (l.source.node ∈ (g.merge other).1.copies)) = [] :=
        List.filter_eq_nil_iff.mpr fun l hl ht => hhost l hl .output (of_decide_eq_true ht)
      have hall : new.filter (fun l => decide (l.source.node ∈ (g.merge other).1.copies)) = new :=
        List.filter_eq_self.mpr fun l hl => decide_eq_true (hcopy l hl .output)
      have hbare : (new.map fun l => some l.bare) = (new.map Link.bare).map some := List.map_map.symm
      rw [hlinks, List.filter_append, hold, hall, List.append_nil, hbare, ← himages]
      exact hnew.map some
    hosted := by
      have hold : g.links.filter (fun l => decide (l.source.node ∉ (g.merge other).1.copies)) = g.links :=
        List.filter_eq_self.mpr fun l hl => decide_eq_true (hhost l hl .output)
      have hnone : new.filter (fun l => decide (l.source.node ∉ (g.merge other).1.copies)) = [] :=
        List.filter_eq_nil_iff.mpr fun l hl ht => of_decide_eq_true ht (hcopy l hl .output)
      rw [hlinks, List.filter_append, hold, hnone, List.nil_append]
    apart := fun l hl => by
      rcases List.mem_append.mp (hlinks ▸ hl) with hl | hl
      · exact iff_of_true (hcopy l hl .output) (hcopy l hl .input)
      · exact iff_of_false (hhost l hl .output) (hhost l hl .input)
    successors := fun hk role => h.merge_distinct ho hk role .output
    predecessors := fun hk role => h.merge_distinct ho hk role .input }

theorem Sound.ready (h : g.Sound) (hwhole : g.torn = false) : g.Ready where
  origin := Or.inl ⟨h.tidy, hwhole⟩
  joins _ hl := h.contains_ends hl
  order_lt := h.order_lt

theorem clone_numbers (g : Graph κ) : g.clone.1.copies = List.range g.nodeCount ∧
    g.clone.1.copies.map g.clone.2.orderOf = List.range g.nodeCount := by
  rw [List.range_eq_range']
  constructor
  · have hids := copyNodes_ids (g := { name := g.name }) rfl rfl g.nodes
    rw [← length_nodeIds, nodeIds, List.length_map]
    exact hids
  · exact (((sound_empty g.name).ready rfl).merge_orders g).2

/-- Merging a graph into another one makes a copy of it there. A clone is such a copy on its own, and
its ids and order keys count from zero. -/
theorem merge_copies (h : g.Ready) (ho : other.Intact)
    (hroom : g.nextOrder + other.nodeCount < 4294967296) :
    Merged g other (g.merge other).1 (g.merge other).2 ∧
      Merged { name := other.name } other other.clone.1 other.clone.2 ∧
      other.clone.1.copies = List.range other.nodeCount ∧
      other.clone.1.copies.map other.clone.2.orderOf = List.range other.nodeCount := by
  have hclone : (0 : Nat) + other.nodeCount < 4294967296 := by omega
  exact ⟨h.merged ho hroom, ((sound_empty other.name).ready rfl).merged ho hclone, other.clone_numbers⟩

/-- A graph as it may be read: with a vacant node id, a vacant link id and one order key for two nodes. -/
def porch : ScriptGraph :=
  Arena.toGraph
    ⟨[{ ScriptNode.entry "open" with order := 3 }, { ScriptNode.call "push" with order := 3 }], [1],
      [none, some ⟨1, ⟨0, 0⟩, ⟨2, 0⟩, .control⟩]⟩ "porch" 0

theorem porch_merged :
    porch.Intact ∧ reopened.Ready ∧
      Merged reopened porch (reopened.merge porch).1 (reopened.merge porch).2 ∧
    porch.clone.1.copies = [0, 1] := by
  have hready : reopened.Ready :=
    Sound.ready (((((((Built.empty "open").addNode _).addNode _).removeNode 0).addNode _).connect
      ⟨0, 0⟩ ⟨1, 0⟩).sound.1)
      (by decide +kernel)
  have hread : ScriptGraph.ofJson Decoder.nesting (ScriptGraph.toJson porch) = .ok porch := by rfl
  have hintact : porch.Intact := ⟨Or.inr ⟨_, _, _, hread⟩, by decide +kernel⟩
  have hcount : porch.nodeCount = 2 := by decide +kernel
  obtain ⟨hmerged, _, hids, _⟩ := merge_copies hready hintact (by decide +kernel)
  exact ⟨hintact, hready, hmerged, hids.trans (congrArg List.range hcount)⟩

/-- A graph that is read with a link to a vacant id. -/
def ajarArena : Arena NodeKind :=
  ⟨[ScriptNode.entry "open", { ScriptNode.call "push" with order := 1 }], [2],
    [some ⟨0, ⟨0, 0⟩, ⟨2, 0⟩, .control⟩]⟩

def ajar : ScriptGraph := ajarArena.toGraph "open" 2

def knock : ScriptGraph := (Graph.addNode { name := "knock" } (ScriptNode.call "knock")).2

def shut : ScriptGraph := (ajar.addNode (ScriptNode.call "knock")).2

/-- A copy takes a vacant id over together with the links that end there, so these join it to the nodes
that were there. In a graph to which this happened they are lost to both of their ends, but not to a
clone. -/
theorem ajar_not_merged :
    (ajarArena.check = .ok () ∧ (∀ p ∈ ajar.stored, p.2.order < ajar.nextOrder) ∧ knock.Intact ∧
      ajar.nextOrder + knock.nodeCount < 4294967296 ∧
        ¬ Merged ajar knock (ajar.merge knock).1 (ajar.merge knock).2) ∧
    (∀ l ∈ shut.links, shut.contains l.source.node = true ∧ shut.contains l.target.node = true) ∧
      shut.nodeCount < 4294967296 ∧
      ¬ Merged { name := shut.name } shut shut.clone.1 shut.clone.2 := by
  refine ⟨⟨by decide, by decide +kernel, ⟨Or.inl rfl, by decide +kernel⟩, by decide +kernel,
    fun hmerged => ?_⟩, by decide +kernel, by decide +kernel, fun hmerged => ?_⟩
  · have hjoined : ∃ l ∈ (ajar.merge knock).2.links, ¬ (l.source.node ∈ (ajar.merge knock).1.copies ↔
        l.target.node ∈ (ajar.merge knock).1.copies) := by decide +kernel
    obtain ⟨l, hl, hne⟩ := hjoined
    exact hne (hmerged.apart l hl)
  · have hsorted : shut.nodes = shut.stored := List.mergeSort_of_pairwise (by decide +kernel)
    have hcopy : shut.clone.1.copy? 0 = some 0 := by
      rw [clone, merge, hsorted]
      decide +kernel
    have hne : (shut.clone.2.successors 0 .control).map some ≠
        (shut.successors 0 .control).map shut.clone.1.copy? := by
      rw [clone, merge, hsorted]
      decide +kernel
    exact hne (hmerged.successors hcopy .control)

end Graph

end VisualScript
