import Mathlib.Data.List.Nodup
import VisualScript.Graph.Schedule
import VisualScript.Proofs.Graph.Slots
import VisualScript.Proofs.Graph.Walks

namespace VisualScript

namespace Graph

variable {κ : Type} {g : Graph κ} {isPure : Node κ → Bool} {entry : Option NodeId} {s : Schedule}

theorem nodup_stored (g : Graph κ) : (g.stored.map Prod.fst).Nodup := by
  have hids : (g.slots.zipIdx.map Prod.snd).Nodup := by
    rw [List.zipIdx_map_snd]
    exact List.nodup_range'
  refine List.pairwise_map.mpr (List.Pairwise.filterMap _ ?_ (List.pairwise_map.mp hids))
  intro a b hab x hx y hy
  obtain ⟨n, _, rfl⟩ := Option.map_eq_some_iff.mp hx
  obtain ⟨m, _, rfl⟩ := Option.map_eq_some_iff.mp hy
  exact hab

theorem authored_iff (i j : Nat) (n m : Node κ) :
    authored (i, n) (j, m) = true ↔ n.order < m.order ∨ n.order = m.order ∧ i ≤ j := by
  simp only [authored, Bool.or_eq_true, Bool.and_eq_true, decide_eq_true_eq]

theorem authored_trans (a b c : NodeId × Node κ) (hab : authored a b = true) (hbc : authored b c = true) :
    authored a c = true := by
  rw [authored_iff] at *
  omega

theorem authored_total (a b : NodeId × Node κ) : (authored a b || authored b a) = true := by
  rw [Bool.or_eq_true, authored_iff, authored_iff]
  omega

theorem nodup_nodes (g : Graph κ) : (g.nodes.map Prod.fst).Nodup :=
  ((List.mergeSort_perm g.stored authored).map Prod.fst).nodup_iff.mpr g.nodup_stored

theorem nodup_findNodes (g : Graph κ) (p : Node κ → Bool) : (g.findNodes p).Nodup :=
  g.nodup_nodes.sublist (List.filter_sublist.map _)

theorem runsBefore_iff (g : Graph κ) (entry : Option NodeId) (a b : Nat) : g.runsBefore entry a b = true ↔
    (if some a = entry then 0 else 1) < (if some b = entry then 0 else 1) ∨
      (if some a = entry then 0 else 1) = (if some b = entry then 0 else 1) ∧
        (g.orderOf a < g.orderOf b ∨ g.orderOf a = g.orderOf b ∧ a ≤ b) := by
  simp only [runsBefore, Bool.or_eq_true, Bool.and_eq_true, decide_eq_true_eq]

theorem runsBefore_trans (g : Graph κ) (entry : Option NodeId) (a b c : NodeId)
    (hab : g.runsBefore entry a b = true) (hbc : g.runsBefore entry b c = true) :
    g.runsBefore entry a c = true := by
  rw [runsBefore_iff] at *
  omega

theorem runsBefore_total (g : Graph κ) (entry : Option NodeId) (a b : NodeId) :
    (g.runsBefore entry a b || g.runsBefore entry b a) = true := by
  rw [Bool.or_eq_true, runsBefore_iff, runsBefore_iff]
  omega

variable {components : Components}

theorem sorted_picks (g : Graph κ) (entry : Option NodeId) {ids : List NodeId} (hids : ids.Nodup)
    (role : Role) :
    Picks (fun id => g.successors id role) (g.runsBefore entry) ids
      (walk (fun id => g.successors id role) (g.runsBefore entry) ids) :=
  walk_picks (g.runsBefore_trans entry) (g.runsBefore_total entry) _ hids

theorem sorted_ok {ids linear : List NodeId} {role : Role}
    (h : g.sorted entry ids role components = .ok linear) (hids : ids.Nodup) :
    Picks (fun id => g.successors id role) (g.runsBefore entry) ids linear ∧ linear.Perm ids := by
  have hpicks := g.sorted_picks entry hids role
  simp only [sorted] at h
  split at h
  · next hlength =>
      cases h
      exact ⟨hpicks, hpicks.perm hids hlength⟩
  · cases h

theorem sorted_of_forward {role : Role} (h : ∀ a b, b ∈ g.successors a role → a < b)
    (entry : Option NodeId) {ids : List NodeId} (hids : ids.Nodup) :
    ∃ linear, g.sorted entry ids role components = .ok linear := by
  have hpicks := g.sorted_picks entry hids role
  have hall (k : Nat) : k ∈ ids → k ∈ walk (fun id => g.successors id role) (g.runsBefore entry) ids := by
    induction k using Nat.strongRecOn with
    | ind k ih =>
        intro hk
        by_contra hleft
        obtain ⟨y, hy, hydone, hafter⟩ := hpicks.exists_before hids hk hleft
        exact hydone (ih y (h y k hafter) hy)
  have hlength := ((List.perm_ext_iff_of_nodup (hpicks.nodup hids) hids).mpr
    fun k => ⟨fun hk => hpicks.subset hk, hall k⟩).length_eq
  exact ⟨_, by rw [sorted, if_pos hlength]⟩

def Pure (g : Graph κ) (isPure : Node κ → Bool) (id : NodeId) : Prop :=
  ∃ n, g.node? id = some n ∧ isPure n = true

def Impure (g : Graph κ) (isPure : Node κ → Bool) (id : NodeId) : Prop :=
  ∃ n, g.node? id = some n ∧ isPure n = false

section

variable (h : g.schedule entry isPure components = .ok s)
include h

theorem schedule_cases :
    ∃ order, g.sorted entry (g.findNodes fun n => !isPure n) .control components = .ok s.linear ∧
    g.sorted none (g.findNodes isPure) .data components = .ok order ∧
      s.preludes = s.linear.map fun id => (id, g.preludeOf order id) := by
  unfold schedule at h
  split at h
  · cases h
  · next linear hlinear =>
      split at h
      · cases h
      · next order horder =>
          cases h
          exact ⟨order, hlinear, horder, rfl⟩

theorem schedule_linear :
    Picks (fun id => g.successors id .control) (g.runsBefore entry) (g.findNodes fun n => !isPure n)
      s.linear ∧
      s.linear.Perm (g.findNodes fun n => !isPure n) := by
  obtain ⟨_, hlinear, _⟩ := schedule_cases h
  exact sorted_ok hlinear (g.nodup_findNodes _)

theorem schedule_nodup : s.linear.Nodup :=
  (schedule_linear h).2.nodup_iff.mpr (g.nodup_findNodes _)

theorem mem_linear {id : NodeId} :
    id ∈ s.linear ↔ g.Impure isPure id := by
  simp only [(schedule_linear h).2.mem_iff, mem_findNodes, Impure, Bool.not_eq_eq_eq_not, Bool.not_true]

theorem schedule_prelude : ∃ order, g.sorted none (g.findNodes isPure) .data components = .ok order ∧
      ∀ id, s.prelude id = [] ∨ s.prelude id = g.preludeOf order id := by
  obtain ⟨order, _, horder, hpreludes⟩ := schedule_cases h
  refine ⟨order, horder, fun id => ?_⟩
  rw [Schedule.prelude, hpreludes]
  cases hlookup : (s.linear.map fun id => (id, g.preludeOf order id)).lookup id with
  | none => exact Or.inl rfl
  | some l =>
      obtain ⟨a, b, hab, _⟩ := List.lookup_eq_some_iff.mp hlookup
      have hmem : (id, l) ∈ s.linear.map fun id => (id, g.preludeOf order id) := by simp [hab]
      obtain ⟨_, _, he⟩ := List.mem_map.mp hmem
      cases he
      exact Or.inr rfl

theorem mem_prelude {id k : NodeId} (hk : k ∈ s.prelude id) : g.Pure isPure k := by
  obtain ⟨order, horder, hprelude⟩ := schedule_prelude h
  rcases hprelude id with he | he <;> rw [he] at hk
  · cases hk
  · exact mem_findNodes.mp
      ((sorted_ok horder (g.nodup_findNodes _)).2.mem_iff.mp (List.mem_of_mem_filter hk))

theorem exists_of_mem_run {id k : NodeId} (hid : id ∈ s.linear) (hk : k ∈ s.prelude id ++ [id]) :
    ∃ n, g.node? k = some n := by
  rcases List.mem_append.mp hk with hk | hk
  · exact (mem_prelude h hk).imp fun _ hn => hn.1
  · cases List.mem_singleton.mp hk
    exact ((mem_linear h).mp hid).imp fun _ hn => hn.1

theorem ne_of_mem_prelude {id k : NodeId} (hid : id ∈ s.linear) (hk : k ∈ s.prelude id) : k ≠ id := by
  rintro rfl
  obtain ⟨n, hn, himpure⟩ := (mem_linear h).mp hid
  obtain ⟨m, hm, hpure⟩ := mem_prelude h hk
  cases hn.symm.trans hm
  exact absurd (himpure.symm.trans hpure) Bool.false_ne_true

end

theorem head_linear {e : NodeId} (h : g.schedule (some e) isPure components = .ok s)
    (he : g.Impure isPure e) (hfirst : ∀ a, g.Impure isPure a → e ∉ g.successors a .control) :
    s.linear.head? = some e := by
  have hmem {id : NodeId} : id ∈ g.findNodes (fun n => !isPure n) ↔ g.Impure isPure id :=
    (schedule_linear h).2.mem_iff.symm.trans (mem_linear h)
  refine (schedule_linear h).1.head? (hmem.mpr he) (fun a ha => hfirst a (hmem.mp ha))
    fun a _ hbefore => ?_
  by_contra hne
  simp [runsBefore, hne] at hbefore

end Graph

end VisualScript
