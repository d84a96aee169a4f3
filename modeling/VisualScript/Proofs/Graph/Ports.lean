import VisualScript.Proofs.Graph.Slots

namespace VisualScript

namespace Node

variable {κ : Type} {n m : Node κ} {d : Direction} {i : UInt16}

/-- Positions fit into 16 bits, and a name and a direction tell a port. -/
structure WellNamed (n : Node κ) : Prop where
  few : n.ports.length ≤ 65536
  distinct : n.ports.Pairwise fun p q => p.direction = q.direction → p.name ≠ q.name

instance (n : Node κ) : Decidable n.WellNamed :=
  decidable_of_iff (n.ports.length ≤ 65536 ∧ n.ports.Pairwise fun p q => p.direction = q.direction →
    p.name ≠ q.name)
    ⟨fun h => ⟨h.1, h.2⟩, fun h => ⟨h.1, h.2⟩⟩

theorem mem_indexed_of_port? {p : Port} (hp : n.port? i = some p) : (i, p) ∈ n.indexed :=
  List.mem_map.mpr ⟨(p, i.toNat), List.mem_zipIdx_iff_getElem?.mpr hp, Prod.ext UInt16.ofNat_toNat rfl⟩

theorem mem_indexed (h : n.ports.length ≤ 65536) {p : Port} :
    (i, p) ∈ n.indexed ↔ n.port? i = some p := by
  refine ⟨fun hmem => ?_, mem_indexed_of_port?⟩
  simp only [indexed, List.mem_map, Prod.mk.injEq] at hmem
  obtain ⟨⟨p', k⟩, hk, rfl, rfl⟩ := hmem
  have hk := List.mem_zipIdx_iff_getElem?.mp hk
  have hlt : k < 65536 := Nat.lt_of_lt_of_le (List.getElem?_eq_some_iff.mp hk).1 h
  rw [port?, UInt16.toNat_ofNat_of_lt' hlt]
  exact hk

theorem portsWhere_append {α : Type} {front : List Port} {l : List α} {f : α → Port}
    (hports : n.ports = front ++ l.map f) {role : Role} (hfront : ∀ p ∈ front, p.is role d = false)
    (hf : ∀ a, (f a).is role d = true) :
    n.portsWhere role d = l.zipIdx.map fun a => (UInt16.ofNat (front.length + a.2), f a.1) := by
  have hskip : (front.zipIdx.map fun p => (UInt16.ofNat p.2, p.1)).filter (fun p => p.2.is role d) =
      [] := by
    refine List.filter_eq_nil_iff.mpr fun p hp => ?_
    obtain ⟨q, hq, rfl⟩ := List.mem_map.mp hp
    rw [hfront q.1 (List.fst_mem_of_mem_zipIdx hq)]
    exact Bool.false_ne_true
  rw [portsWhere, indexed, hports, List.zipIdx_append, List.map_append, List.filter_append, hskip,
    List.nil_append,
    List.zipIdx_map, List.map_map, List.filter_eq_self.mpr]
  · rw [Nat.zero_add, List.zipIdx_eq_map_add, List.map_map]
    exact List.map_congr_left fun a _ => by simp [Nat.add_comm]
  · intro p hp
    obtain ⟨a, _, rfl⟩ := List.mem_map.mp hp
    exact hf a.1

theorem nodup_portsWhere (h : n.ports.length ≤ 65536) (role : Role) (d : Direction) :
    ((n.portsWhere role d).map Prod.fst).Nodup := by
  have hindexed : (n.indexed.map Prod.fst).Nodup := by
    rw [List.nodup_iff_pairwise_ne, List.pairwise_map, indexed, List.pairwise_map,
      List.pairwise_iff_getElem]
    intro i j hi hj hij he
    simp only [List.length_zipIdx] at hi hj
    simp only [List.getElem_zipIdx, Nat.zero_add] at he
    have he := congrArg UInt16.toNat he
    rw [UInt16.toNat_ofNat_of_lt' (Nat.lt_of_lt_of_le hi h),
      UInt16.toNat_ofNat_of_lt' (Nat.lt_of_lt_of_le hj h)] at he
    omega
  exact hindexed.sublist (List.filter_sublist.map _)

theorem WellNamed.indexed (h : n.WellNamed) :
    n.indexed.Pairwise fun a b => a.1 ≠ b.1 ∧ (a.2.direction = b.2.direction → a.2.name ≠ b.2.name) := by
  rw [Node.indexed, List.pairwise_map, List.pairwise_iff_getElem]
  intro i j hi hj hij
  simp only [List.length_zipIdx] at hi hj
  simp only [List.getElem_zipIdx, Nat.zero_add]
  have hfew := h.few
  refine ⟨fun he => ?_, (List.pairwise_iff_getElem.mp h.distinct) i j hi hj hij⟩
  have he := congrArg UInt16.toNat he
  rw [UInt16.toNat_ofNat_of_lt' (Nat.lt_of_lt_of_le hi hfew),
    UInt16.toNat_ofNat_of_lt' (Nat.lt_of_lt_of_le hj hfew)] at he
  omega

/-- Positions fit into 16 bits, and among the ports of one direction a name tells a port. -/
structure NamedApart (n : Node κ) (d : Direction) : Prop where
  few : n.ports.length ≤ 65536
  distinct : n.ports.Pairwise fun p q => p.direction = d → q.direction = d → p.name ≠ q.name

instance (n : Node κ) (d : Direction) : Decidable (n.NamedApart d) :=
  decidable_of_iff
    (n.ports.length ≤ 65536 ∧ n.ports.Pairwise fun p q => p.direction = d → q.direction = d →
      p.name ≠ q.name)
    ⟨fun h => ⟨h.1, h.2⟩, fun h => ⟨h.1, h.2⟩⟩

theorem WellNamed.apart (h : n.WellNamed) (d : Direction) : n.NamedApart d :=
  ⟨h.few, h.distinct.imp fun hpq hp hq => hpq (hp.trans hq.symm)⟩

theorem NamedApart.unique (h : n.NamedApart d) {i j : UInt16} {p q : Port} (hp : n.port? i = some p)
    (hq : n.port? j = some q) (hpd : p.direction = d) (hqd : q.direction = d)
    (hname : p.name = q.name) : i = j := by
  have hpair := List.pairwise_iff_getElem.mp h.distinct
  obtain ⟨hi, rfl⟩ := List.getElem?_eq_some_iff.mp hp
  obtain ⟨hj, rfl⟩ := List.getElem?_eq_some_iff.mp hq
  rcases Nat.lt_trichotomy i.toNat j.toNat with hij | hij | hij
  · exact absurd hname (hpair _ _ hi hj hij hpd hqd)
  · exact UInt16.toNat_inj.mp hij
  · exact absurd hname.symm (hpair _ _ hj hi hij hqd hpd)

theorem NamedApart.findPort? (h : n.NamedApart d) {name : String} :
    n.findPort? name d = some i ↔ ∃ p, n.port? i = some p ∧ p.name = name ∧ p.direction = d := by
  have hfound {j : UInt16} {q : Port}
      (hf : (n.indexed.find? fun p => p.2.name = name ∧ p.2.direction = d) = some (j, q)) :
      n.port? j = some q ∧ q.name = name ∧ q.direction = d :=
    ⟨(mem_indexed h.few).mp (List.mem_of_find?_eq_some hf), by simpa using List.find?_some hf⟩
  simp only [Node.findPort?, Option.map_eq_some_iff]
  constructor
  · rintro ⟨⟨j, p⟩, hf, rfl⟩
    exact ⟨p, hfound hf⟩
  · rintro ⟨p, hp, hname, hd⟩
    cases hf : n.indexed.find? fun p => p.2.name = name ∧ p.2.direction = d with
    | none =>
        have hnone := List.find?_eq_none.mp hf (i, p) ((mem_indexed h.few).mpr hp)
        simp [hname, hd] at hnone
    | some q =>
        obtain ⟨hq, hname', hd'⟩ := hfound hf
        exact ⟨q, rfl, h.unique hq hp hd' hd (hname'.trans hname.symm)⟩

theorem WellNamed.findPort? (h : n.WellNamed) {name : String} :
    n.findPort? name d = some i ↔ ∃ p, n.port? i = some p ∧ p.name = name ∧ p.direction = d :=
  (h.apart d).findPort?

theorem port?_outline (n : Node κ) (i : UInt16) :
    n.outline.port? i = (n.port? i).map fun p => ⟨p.name, p.direction, p.role, .wildcard, none⟩ :=
  List.getElem?_map

theorem findPort?_outline (n : Node κ) (name : String) (d : Direction) :
    n.outline.findPort? name d = n.findPort? name d := by
  simp only [Node.findPort?, Node.indexed, outline, List.zipIdx_map, List.map_map, List.find?_map,
    Option.map_map]
  rfl

theorem portNames_outline (n : Node κ) (role : Role) (d : Direction) :
    (n.outline.portsWhere role d).map (fun p => (p.1, p.2.name)) =
      (n.portsWhere role d).map fun p => (p.1, p.2.name) := by
  simp only [portsWhere, indexed, outline, List.zipIdx_map, List.map_map, List.filter_map]
  rfl

theorem portNames_eq_of_outline {n m : Node κ} (h : n.outline = m.outline) (role : Role) (d : Direction) :
    (n.portsWhere role d).map (fun p => (p.1, p.2.name)) =
      (m.portsWhere role d).map fun p => (p.1, p.2.name) := by
  rw [← portNames_outline n, h, portNames_outline]

end Node

namespace Graph

variable {κ : Type} {g g' : Graph κ}

def PortAt (g : Graph κ) (d : Direction) (p : PortRef) : Prop :=
  ∃ port, g.port? p = some port ∧ port.direction = d

def SameOutline (g' g : Graph κ) : Prop :=
  ∀ k, (g'.node? k).map Node.outline = (g.node? k).map Node.outline

theorem SameOutline.ofSlots (h : g'.slots = g.slots) : g'.SameOutline g := fun k => by rw [node?_congr h]

theorem SameOutline.trans {g'' : Graph κ} (h : g''.SameOutline g') (h' : g'.SameOutline g) :
    g''.SameOutline g :=
  fun k => (h k).trans (h' k)

theorem SameOutline.symm (h : g'.SameOutline g) : g.SameOutline g' := fun k => (h k).symm

theorem SameOutline.node? (h : g'.SameOutline g) {k : NodeId} {n : Node κ} (hn : g.node? k = some n) :
    ∃ n', g'.node? k = some n' ∧ n'.outline = n.outline := by
  have hk := h k
  rw [hn] at hk
  exact Option.map_eq_some_iff.mp hk

theorem SameOutline.port? (h : g'.SameOutline g) {p : PortRef} {port : Port} (hp : g.port? p = some port) :
    ∃ port', g'.port? p = some port' ∧ port'.name = port.name ∧ port'.direction = port.direction ∧
      port'.role = port.role := by
  obtain ⟨n, hn, hp⟩ := Option.bind_eq_some_iff.mp hp
  obtain ⟨n', hn', ho⟩ := h.node? hn
  have hports := congrArg (fun n => n.port? p.index) ho
  simp only [Node.port?_outline, hp, Option.map_some, Option.map_eq_some_iff] at hports
  obtain ⟨port', hp', he⟩ := hports
  refine ⟨port', Option.bind_eq_some_iff.mpr ⟨n', hn', hp'⟩, ?_⟩
  rw [Port.mk.injEq] at he
  exact ⟨he.1, he.2.1, he.2.2.1⟩

theorem SameOutline.portAt (h : g'.SameOutline g) {d : Direction} {p : PortRef} :
    g'.PortAt d p ↔ g.PortAt d p := by
  have hle {g g' : Graph κ} (h : g'.SameOutline g) : g.PortAt d p → g'.PortAt d p := by
    rintro ⟨port, hp, hd⟩
    obtain ⟨port', hp', _, hd', _⟩ := h.port? hp
    exact ⟨port', hp', hd'.trans hd⟩
  exact ⟨hle h.symm, hle h⟩

theorem SameOutline.findPort? (h : g'.SameOutline g) (k : NodeId) (name : String) (d : Direction) :
    g'.findPort? k name d = g.findPort? k name d := by
  have hfind (g : Graph κ) : g.findPort? k name d =
      (((g.node? k).map Node.outline).bind fun n => n.findPort? name d).map fun index => ⟨k, index⟩ := by
    simp only [Graph.findPort?, Option.bind_map, Function.comp_def, Node.findPort?_outline]
  rw [hfind, hfind, h k]

end Graph

end VisualScript
