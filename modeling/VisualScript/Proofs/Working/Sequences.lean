import Mathlib.Algebra.Order.BigOperators.Group.List
import Mathlib.Algebra.Order.Group.Nat
import Mathlib.Data.Nat.Find
import VisualScript.Proofs.Graph.Representation
import VisualScript.Proofs.Working.Emission

namespace VisualScript

theorem Exit.flow_injective {a b : List NodeId} (h : (Exit.flow a).code = (Exit.flow b).code) : a = b := by
  have hpush : Function.Injective fun id : NodeId => Statement.pushFlow (.node id) :=
    fun _ _ h => by cases h; rfl
  cases a with
  | nil => cases b with
    | nil => rfl
    | cons t rest =>
        have hlast := congrArg List.getLast? h
        simp [code] at hlast
  | cons t rest => cases b with
    | nil =>
        have hlast := congrArg List.getLast? h
        simp [code] at hlast
    | cons t' rest' =>
        simp only [code] at h
        obtain ⟨hrest, hfirst⟩ := List.append_inj' h rfl
        rw [List.reverse_inj.mp (List.map_injective_iff.mpr hpush hrest)]
        cases hfirst
        rfl

namespace Node

variable {κ : Type} {n : Node κ}

/-- The port is at a position of 16 bits, and no output of its name is before it. -/
def TellsOutput (n : Node κ) (p : Port) (k : Nat) : Prop :=
  k < 65536 ∧ ∀ q ∈ n.ports.take k, q.direction = .output → q.name ≠ p.name

instance (n : Node κ) (p : Port) (k : Nat) : Decidable (n.TellsOutput p k) :=
  inferInstanceAs (Decidable (k < 65536 ∧ ∀ q ∈ n.ports.take k, q.direction = .output → q.name ≠ p.name))

def TellsOutputs (n : Node κ) : Prop :=
  ∀ p ∈ n.ports.zipIdx, p.1.is .control .output = true → n.TellsOutput p.1 p.2

instance (n : Node κ) : Decidable n.TellsOutputs :=
  inferInstanceAs (Decidable (∀ p ∈ n.ports.zipIdx, p.1.is .control .output = true →
    n.TellsOutput p.1 p.2))

theorem findPort?_eq (n : Node κ) (name : String) (d : Direction) :
    n.findPort? name d = (n.ports.findIdx? fun q => q.name = name ∧ q.direction = d).map UInt16.ofNat := by
  rw [Node.findPort?, indexed, List.find?_map, Option.map_map, List.findIdx?_eq_fst_find?_zipIdx,
    Option.map_map]
  rfl

theorem TellsOutput.findPort? {p : Port} {k : Nat} (h : n.TellsOutput p k) (hp : n.ports[k]? = some p)
    (hout : p.is .control .output = true) : n.findPort? p.name .output = some (UInt16.ofNat k) := by
  obtain ⟨hk, rfl⟩ := List.getElem?_eq_some_iff.mp hp
  rw [findPort?_eq, List.findIdx?_eq_some_iff_getElem.mpr
    ⟨hk, by simp [(Port.is_iff.mp hout).2], ?_⟩, Option.map_some]
  intro j hj hfound
  obtain ⟨hname, hd⟩ := of_decide_eq_true hfound
  exact h.2 _ (List.mem_take_iff_getElem.mpr ⟨j, by omega, rfl⟩) hd hname

/-- Of the control outputs that are not told by their names, the first is found at the position of
an earlier port, which is no control output or found there as well. -/
theorem exists_mistaken (h : ¬ n.TellsOutputs) :
    ∃ p k j, (p, k) ∈ n.ports.zipIdx ∧ p.is .control .output = true ∧
    n.findPort? p.name .output = some j ∧ j.toNat < k ∧
    ∀ q, n.port? j = some q → q.is .control .output = true → n.findPort? q.name .output = some j := by
  classical
  have hex : ∃ k, ∃ p, n.ports[k]? = some p ∧ p.is .control .output = true ∧ ¬ n.TellsOutput p k := by
    rw [TellsOutputs] at h
    push Not at h
    obtain ⟨p, hp, hout, hbad⟩ := h
    exact ⟨p.2, p.1, List.mem_zipIdx_iff_getElem?.mp hp, hout, hbad⟩
  obtain ⟨p, hp, hout, hbad⟩ := Nat.find_spec hex
  have hleast := fun j hj => Nat.find_min (m := j) hex hj
  generalize Nat.find hex = k at hp hbad hleast
  obtain ⟨i, hi⟩ : ∃ i, (n.ports.findIdx? fun q => q.name = p.name ∧ q.direction = .output) = some i := by
    refine Option.isSome_iff_exists.mp ?_
    rw [List.findIdx?_isSome, List.any_eq_true]
    exact ⟨p, List.mem_of_getElem? hp, by simp [(Port.is_iff.mp hout).2]⟩
  obtain ⟨hlen, hfound, hbefore⟩ := List.findIdx?_eq_some_iff_getElem.mp hi
  have hle : i ≤ k := by
    obtain ⟨hk, rfl⟩ := List.getElem?_eq_some_iff.mp hp
    by_contra hlt
    exact hbefore k (by omega) (by simp [(Port.is_iff.mp hout).2])
  have hearlier : (UInt16.ofNat i).toNat < k := by
    by_cases hk : k < 65536
    · have hne : i ≠ k := by
        rintro rfl
        refine hbad ⟨hk, fun q hq hd he => ?_⟩
        obtain ⟨j, hj, rfl⟩ := List.mem_take_iff_getElem.mp hq
        exact hbefore j (by omega) (by simp [hd, he])
      rw [UInt16.toNat_ofNat_of_lt' (Nat.lt_of_le_of_lt hle hk)]
      omega
    · have := (UInt16.ofNat i).toNat_lt
      omega
  refine ⟨p, k, UInt16.ofNat i, List.mem_zipIdx_iff_getElem?.mpr hp, hout, ?_, hearlier,
    fun q hq hqout => ?_⟩
  · rw [findPort?_eq, hi, Option.map_some]
  · by_contra hne
    refine hleast _ hearlier ⟨q, hq, hqout, fun htold => hne ?_⟩
    rw [htold.findPort? hq hqout, UInt16.ofNat_toNat]

end Node

namespace Graph

variable {g : ScriptGraph} {id : NodeId} {n : ScriptNode}

/-- The nodes linked to the port at a position. -/
def linkedAt (g : ScriptGraph) (id : NodeId) (k : Nat) : List NodeId :=
  if k < 65536 then (g.farEnds ⟨id, UInt16.ofNat k⟩).map PortRef.node else []

def linkedOutputs (g : ScriptGraph) (id : NodeId) (n : ScriptNode) : List NodeId :=
  (n.ports.zipIdx.filter fun p => p.1.is .control .output).flatMap fun p => g.linkedAt id p.2

/-- The nodes linked to the first outputs that have the names of the control outputs, in port order. -/
def namedOutputs (g : ScriptGraph) (id : NodeId) (n : ScriptNode) : List NodeId :=
  (n.ports.zipIdx.filter fun p => p.1.is .control .output).flatMap fun p => (g.behind? id p.1.name).toList

/-- No control output has two links. -/
def SinglyLinked (g : ScriptGraph) : Prop :=
  ∀ p port, g.port? p = some port → port.is .control .output = true → (g.farEnds p).length ≤ 1

theorem singlyLinked_of_sources (ht : g.threads = none) (h : (g.links.map Link.source).Nodup) :
    g.SinglyLinked := by
  intro p port hp hout
  have hcount := List.nodup_iff_count_le_one.mp h p
  rw [List.count, List.countP_map, List.countP_eq_length_filter] at hcount
  rw [farEnds, List.length_map, (edges_perm ht hp).length_eq, List.length_map, (Port.is_iff.mp hout).2]
  exact hcount

theorem behind?_eq (hn : g.node? id = some n) (name : String) :
    g.behind? id name = (n.findPort? name .output).bind fun i =>
      (g.farEnds ⟨id, i⟩).head?.map PortRef.node := by
  rw [behind?, Graph.findPort?, hn, Option.bind_some]
  cases n.findPort? name .output <;> rfl

theorem namedOutputs_eq (hn : g.node? id = some n) (hg : g.SinglyLinked) (h : n.TellsOutputs) :
    g.namedOutputs id n = g.linkedOutputs id n := by
  refine List.flatMap_congr fun p hp => ?_
  obtain ⟨hp, hout⟩ := List.mem_filter.mp hp
  have hport := List.mem_zipIdx_iff_getElem?.mp hp
  have htold := h p hp hout
  rw [behind?_eq hn, htold.findPort? hport hout, Option.bind_some, linkedAt, if_pos htold.1]
  have hsingle : (g.farEnds ⟨id, UInt16.ofNat p.2⟩).length ≤ 1 := by
    refine hg _ p.1 ?_ hout
    rw [Graph.port?, hn, Option.bind_some, Node.port?, UInt16.toNat_ofNat_of_lt' htold.1]
    exact hport
  cases hends : g.farEnds ⟨id, UInt16.ofNat p.2⟩ with
  | nil => rfl
  | cons far rest =>
      rw [hends, List.length_cons] at hsingle
      have hrest : rest = [] := List.length_eq_zero_iff.mp (by omega)
      rw [hrest]
      rfl

/-- A graph of two nodes with one link, which is at the port of the first node at that position. -/
def tied (n : ScriptNode) (d : Direction) (j : UInt16) : ScriptGraph :=
  { name := "tied"
    slots := [some n, some (ScriptNode.call "pull")]
    links := match d with
      | .output => [⟨0, ⟨0, j⟩, ⟨1, 0⟩, .control⟩]
      | .input => [⟨0, ⟨1, 0⟩, ⟨0, j⟩, .control⟩] }

theorem singlyLinked_tied (n : ScriptNode) (d : Direction) (j : UInt16) : (tied n d j).SinglyLinked := by
  cases d <;> exact singlyLinked_of_sources rfl (List.nodup_singleton _)

theorem farEnds_tied {j : UInt16} {port : Port} (hj : n.port? j = some port) (i : UInt16) :
    (tied n port.direction j).farEnds ⟨0, i⟩ = if i = j then [⟨1, 0⟩] else [] := by
  have hport : (tied n port.direction j).port? ⟨0, i⟩ = n.port? i := rfl
  rw [farEnds, edges, hport]
  obtain ⟨_, d, _, _, _⟩ := port
  by_cases hi : i = j
  · subst hi
    rw [hj, if_pos rfl]
    cases d <;> simp [linksAt, tied, Link.near, Link.far, Direction.opposite]
  · rw [if_neg hi]
    cases n.port? i with
    | none => rfl
    | some q =>
        obtain ⟨_, d', _, _, _⟩ := q
        cases d <;> cases d' <;> simp [linksAt, tied, Link.near, Ne.symm hi]

/-- An output that is not told by its name takes the turn of another one, for some link. -/
theorem exists_length_lt (h : ¬ n.TellsOutputs) : ∃ g : ScriptGraph, g.node? 0 = some n ∧ g.SinglyLinked ∧
    (g.linkedOutputs 0 n).length < (g.namedOutputs 0 n).length := by
  obtain ⟨p, k, j, hp, hout, hfind, hearlier, htold⟩ := Node.exists_mistaken h
  obtain ⟨port, hj⟩ : ∃ port, n.port? j = some port := by
    obtain ⟨hk, -⟩ := List.getElem?_eq_some_iff.mp (List.mem_zipIdx_iff_getElem?.mp hp)
    exact ⟨_, List.getElem?_eq_getElem (by omega)⟩
  have hn : (tied n port.direction j).node? 0 = some n := rfl
  have hnamed (name : String) : ((tied n port.direction j).behind? 0 name).toList.length =
      if n.findPort? name .output = some j then 1 else 0 := by
    rw [behind?_eq hn]
    cases n.findPort? name .output with
    | none => rfl
    | some i =>
        rw [Option.bind_some, farEnds_tied hj]
        by_cases hi : i = j <;> simp [hi]
  have hlinked (k : Nat) : ((tied n port.direction j).linkedAt 0 k).length = if k = j.toNat then 1
      else 0 := by
    rw [linkedAt]
    by_cases hk : k < 65536
    · have hindex : UInt16.ofNat k = j ↔ k = j.toNat := by
        rw [← UInt16.toNat_inj, UInt16.toNat_ofNat_of_lt' hk]
      rw [if_pos hk, farEnds_tied hj]
      simp only [hindex]
      split <;> rfl
    · have hj := j.toNat_lt
      rw [if_neg hk, if_neg (by omega)]
      rfl
  refine ⟨_, hn, singlyLinked_tied _ _ _, ?_⟩
  rw [linkedOutputs, namedOutputs, List.length_flatMap, List.length_flatMap]
  refine List.sum_lt_sum _ _ (fun q hq => ?_) ⟨(p, k), List.mem_filter.mpr ⟨hp, hout⟩, ?_⟩
  · rw [hnamed, hlinked]
    obtain ⟨hq, hqout⟩ := List.mem_filter.mp hq
    split
    · next he =>
        have hport : n.port? j = some q.1 := by
          rw [Node.port?, ← he]
          exact List.mem_zipIdx_iff_getElem?.mp hq
        rw [if_pos (htold q.1 hport hqout)]
    · exact Nat.zero_le _
  · rw [hnamed, hlinked, if_pos hfind, if_neg (by omega)]
    exact Nat.one_pos

end Graph

namespace Registry

variable {n : ScriptNode}

/-- A sequence gives each control output a turn, in which it takes the link of the first output of
that name. So it takes its own link, however it is linked, just if it is told by its name. -/
theorem sequence_takes_own_links_iff (env : Env) (hk : n.kind = .sequence) :
    (∀ (w : Working) (id : NodeId), w.graph.node? id = some n →
      (standard.emitNode env id w).1 = (Exit.flow (w.graph.namedOutputs id n)).code) ∧
    ((∀ (w : Working) (id : NodeId), w.graph.node? id = some n → w.graph.SinglyLinked →
      (standard.emitNode env id w).1 = (Exit.flow (w.graph.linkedOutputs id n)).code) ↔
        n.TellsOutputs) := by
  have hnamed (w : Working) (id : NodeId) (hn : w.graph.node? id = some n) :
      (standard.emitNode env id w).1 = (Exit.flow (w.graph.namedOutputs id n)).code := by
    have hh := Handler.handler?_standard n
    rw [hk] at hh
    rw [emitNode_eq hn hh, Handler.sequence_code, Node.portsWhere, Node.indexed, List.filter_map,
      List.filterMap_map,
      List.filterMap_eq_flatMap_toList]
    rfl
  refine ⟨hnamed, fun h => ?_, fun h w id hn hg => ?_⟩
  · by_contra hmistaken
    obtain ⟨g, hn, hg, hlt⟩ := Graph.exists_length_lt hmistaken
    have hcode := (hnamed ⟨"", .function, "", g, ∅, {}, none, [], false, false⟩ 0 hn).symm.trans
      (h _ 0 hn hg)
    rw [Exit.flow_injective hcode] at hlt
    exact Nat.lt_irrefl _ hlt
  · rw [hnamed w id hn, Graph.namedOutputs_eq hn hg h]

def relay (outputs : List Port) : ScriptNode :=
  { kind := .sequence, title := "Sequence", ports := .execIn "exec" :: outputs }

/-- A sequence with links to two calls. -/
def relayed (outputs : List Port) (first second : UInt16) : Working :=
  { function := "start"
    role := .function
    sourceGraph := "start"
    graph :=
      { name := "start"
        slots := [some (relay outputs), some { ScriptNode.call "push" with order := 1 },
          some { ScriptNode.call "pull" with order := 2 }]
        links := [⟨1, ⟨0, second⟩, ⟨2, 0⟩, .control⟩, ⟨0, ⟨0, first⟩, ⟨1, 0⟩, .control⟩]
        linkBound := 2
        nextOrder := 3 } }

def apart : List Port := [.execOut "then", .dataOut "then" ⟨.int, .single⟩, .execOut "after"]

theorem relayed_apart : (relay apart).TellsOutputs ∧ (relayed apart 1 3).graph.SinglyLinked ∧
    (relayed apart 1 3).graph.linkedOutputs 0 (relay apart) = [1, 2] ∧
    (standard.emitNode {} 0 (relayed apart 1 3)).1 = [.pushFlow (.node 2), .goto (.node 1)] := by
  have htold : (relay apart).TellsOutputs := by decide
  have hsingle : (relayed apart 1 3).graph.SinglyLinked := Graph.singlyLinked_of_sources rfl (by decide)
  have hlinked : (relayed apart 1 3).graph.linkedOutputs 0 (relay apart) = [1, 2] := by cbv
  refine ⟨htold, hsingle, hlinked, ?_⟩
  rw [(sequence_takes_own_links_iff {} rfl).2.mpr htold _ 0 rfl hsingle, hlinked]
  rfl

def twins : List Port := [.execOut "then", .execOut "then"]

/-- The first of them has both turns. -/
theorem relayed_twins : (relayed twins 1 2).graph.SinglyLinked ∧
    (relayed twins 1 2).graph.linkedOutputs 0 (relay twins) = [1, 2] ∧
    (standard.emitNode {} 0 (relayed twins 1 2)).1 = [.pushFlow (.node 1), .goto (.node 1)] :=
  ⟨Graph.singlyLinked_of_sources rfl (by decide), by cbv, by cbv⟩

end Registry

end VisualScript
