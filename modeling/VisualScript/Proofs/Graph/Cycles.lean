import Mathlib.Data.List.Sort
import Mathlib.Order.WellFoundedSet
import VisualScript.Format.Graph
import VisualScript.Proofs.Graph.DataFlow
import VisualScript.Script.Shape

namespace VisualScript

open Relation

variable {α : Type} {after : α → List α} {before : α → α → Bool} {pending done members : List α}
    {components : List (List α)}

def Precedes (after : α → List α) (members : List α) (a b : α) : Prop :=
  a ∈ members ∧ b ∈ members ∧ b ∈ after a

theorem precedes_restrict [DecidableEq α] (after : α → List α) (members : List α) :
    Precedes (restrict after members) members = Precedes after members := by
  funext a b
  simp only [Precedes, restrict, List.mem_filter, decide_eq_true_eq, eq_iff_iff]
  exact and_congr_right fun _ => and_congr_right fun hb => and_iff_left hb

theorem Precedes.mem_of_path {a b : α} (h : TransGen (Precedes after members) a b) : a ∈ members := by
  obtain ⟨_, hstep, _⟩ := TransGen.head'_iff.mp h
  exact hstep.1

/-- Every member is in one component, with those that it leads to and that lead to it. -/
structure IsStrong (after : α → List α) (members : List α) (components : List (List α)) : Prop where
  perm : components.flatten.Perm members
  connected : ∀ c ∈ components, ∀ x ∈ c, ∀ {y : α}, y ∈ c ↔
    ReflTransGen (Precedes after members) x y ∧ ReflTransGen (Precedes after members) y x

variable [DecidableEq α]

theorem IsStrong.single_or_shared (h : IsStrong after members components) (hnodup : members.Nodup)
    {c : List α} {x : α} (hc : c ∈ components) (hx : x ∈ c) :
    c = [x] ∨ 1 < c.length ∧ ∃ y ∈ c, y ≠ x := by
  have hcnodup : c.Nodup := (List.nodup_flatten.mp (h.perm.nodup_iff.mpr hnodup)).1 c hc
  by_cases he : c = [x]
  · exact Or.inl he
  · obtain ⟨y, hy, hne⟩ := ((hcnodup.ne_singleton_iff x).mp he).resolve_left (List.ne_nil_of_mem hx)
    have hpair : List.Subperm [x, y] c :=
      List.subperm_of_subset (by simpa using hne.symm) (by simp [hx, hy])
    exact Or.inr ⟨hpair.length_le, y, hy, hne⟩

theorem IsStrong.mem_onCycles_iff (h : IsStrong after members components) (hnodup : members.Nodup)
    {x : α} :
    x ∈ onCycles after components ↔ TransGen (Precedes after members) x x := by
  simp only [onCycles, List.mem_flatten, List.mem_filter]
  constructor
  · rintro ⟨c, ⟨hc, hcyclic⟩, hx⟩
    rcases h.single_or_shared hnodup hc hx with rfl | ⟨_, y, hy, hne⟩
    · have hmem : x ∈ members := h.perm.mem_iff.mp (List.mem_flatten_of_mem hc hx)
      exact .single ⟨hmem, hmem, by simpa using hcyclic⟩
    · -- Another member is reached from this one and leads back to it.
      obtain ⟨hxy, hyx⟩ := (h.connected c hc x hx).mp hy
      exact ((reflTransGen_iff_eq_or_transGen.mp hxy).resolve_left hne).trans_left hyx
  · intro hcycle
    obtain ⟨s, hxs, hsx⟩ := TransGen.head'_iff.mp hcycle
    obtain ⟨c, hc, hx⟩ := List.mem_flatten.mp (h.perm.mem_iff.mpr hxs.1)
    refine ⟨c, ⟨hc, ?_⟩, hx⟩
    rcases h.single_or_shared hnodup hc hx with rfl | ⟨hmany, _⟩
    · obtain rfl := List.mem_singleton.mp ((h.connected _ hc x hx).mpr ⟨.single hxs, hsx⟩)
      simpa using hxs.2.2
    · exact Bool.or_eq_true_iff.mpr (Or.inl (decide_eq_true hmany))

theorem mem_closure_singleton_iff {x y : α} (hx : x ∈ members) :
    y ∈ closure members after [x] [] ↔ ReflTransGen (Precedes after members) x y := by
  simp only [mem_closure_iff, List.mem_singleton, exists_eq_left, hx, true_and]
  constructor
  · intro hpath
    induction hpath with
    | refl => exact .refl
    | @tail b c hxb hbc ih =>
        have hb : b ∈ members := by
          rcases hxb.cases_tail with rfl | ⟨_, _, hb⟩
          · exact hx
          · exact hb.2
        exact ih.tail ⟨hb, hbc.2, hbc.1⟩
  · intro hpath
    exact ReflTransGen.mono (fun _ _ hab => ⟨hab.2.2, hab.2.1⟩) _ _ hpath

theorem mem_component_iff {x y : α} (hx : x ∈ members) : y ∈ component after members x ↔
    ReflTransGen (Precedes after members) x y ∧ ReflTransGen (Precedes after members) y x := by
  rw [component, List.mem_filter, decide_eq_true_eq]
  constructor
  · rintro ⟨hy, hxy, hyx⟩
    exact ⟨(mem_closure_singleton_iff hx).mp hxy, (mem_closure_singleton_iff hy).mp hyx⟩
  · rintro ⟨hxy, hyx⟩
    have hy : y ∈ members := by
      rcases hxy.cases_tail with rfl | ⟨_, _, hy⟩
      · exact hx
      · exact hy.2.1
    exact ⟨hy, (mem_closure_singleton_iff hx).mpr hxy, (mem_closure_singleton_iff hy).mpr hyx⟩

theorem component_eq_of_mem {x y : α} (hx : x ∈ members) (hy : y ∈ component after members x) :
    component after members y = component after members x := by
  obtain ⟨hxy, hyx⟩ := (mem_component_iff hx).mp hy
  have hymem : y ∈ members := List.mem_of_mem_filter hy
  refine List.filter_congr fun z hz => ?_
  simp only [mem_closure_singleton_iff hx, mem_closure_singleton_iff hymem,
    mem_closure_singleton_iff hz, decide_eq_decide]
  exact ⟨fun h => ⟨hxy.trans h.1, h.2.trans hyx⟩, fun h => ⟨hyx.trans h.1, h.2.trans hxy⟩⟩

theorem isStrong_strongComponents (after : α → List α) (hnodup : members.Nodup) :
    IsStrong after members (strongComponents after members) := by
  have hself {x : α} (hx : x ∈ members) : x ∈ component after members x :=
    (mem_component_iff hx).mpr ⟨.refl, .refl⟩
  have hmem {c : List α} : c ∈ strongComponents after members ↔
      ∃ x ∈ members, c.head? = some x ∧ component after members x = c := by
    simp only [strongComponents, List.mem_map, List.mem_filter, decide_eq_true_eq, and_assoc]
    exact exists_congr fun x => and_congr_right fun _ => and_congr_left fun he => he ▸ Iff.rfl
  constructor
  · have hdisjoint : (strongComponents after members).Pairwise List.Disjoint := by
      refine List.pairwise_map.mpr ((hnodup.filter _).imp_of_mem fun {x y} hx hy hne => ?_)
      obtain ⟨hx, hxfirst⟩ := List.mem_filter.mp hx
      obtain ⟨hy, hyfirst⟩ := List.mem_filter.mp hy
      -- A member in both components would give them the same first member.
      intro z hzx hzy
      have he := (component_eq_of_mem hx hzx).symm.trans (component_eq_of_mem hy hzy)
      rw [decide_eq_true_eq, he, of_decide_eq_true hyfirst] at hxfirst
      exact hne (Option.some.inj hxfirst).symm
    have hflat : (strongComponents after members).flatten.Nodup := by
      refine List.nodup_flatten.mpr ⟨fun c hc => ?_, hdisjoint⟩
      obtain ⟨x, _, _, rfl⟩ := hmem.mp hc
      exact hnodup.filter _
    refine (List.perm_ext_iff_of_nodup hflat hnodup).mpr fun x => ?_
    constructor
    · intro hx
      obtain ⟨c, hc, hx⟩ := List.mem_flatten.mp hx
      obtain ⟨y, _, _, rfl⟩ := hmem.mp hc
      exact List.mem_of_mem_filter hx
    · intro hx
      obtain ⟨y, hy⟩ := Option.isSome_iff_exists.mp (List.isSome_head?.mpr (List.ne_nil_of_mem (hself hx)))
      have hyx : y ∈ component after members x := List.mem_of_mem_head? hy
      exact List.mem_flatten_of_mem
        (hmem.mpr ⟨y, List.mem_of_mem_filter hyx, hy, component_eq_of_mem hx hyx⟩) (hself hx)
  · intro c hc x hx y
    obtain ⟨z, hz, _, rfl⟩ := hmem.mp hc
    rw [← component_eq_of_mem hz hx]
    exact mem_component_iff (List.mem_of_mem_filter hx)

section Picks

variable (h : Picks after before pending done)
include h

theorem Picks.idxOf_lt_of_path {a b : α} (hpath : TransGen (Precedes after pending) a b) (hb : b ∈ done) :
    a ∈ done ∧ done.idxOf a < done.idxOf b := by
  have hstep {a b : α} (hab : Precedes after pending a b) (hb : b ∈ done) : a ∈ done ∧
      done.idxOf a < done.idxOf b := by
    have ha := h.mem_of_before hab.1 hb hab.2.2
    exact ⟨ha, h.forward a ha b hb hab.2.2⟩
  induction hpath with
  | single hab => exact hstep hab hb
  | tail _ hbc ih =>
      obtain ⟨hmiddle, hlt⟩ := hstep hbc hb
      obtain ⟨ha, hlt'⟩ := ih hmiddle
      exact ⟨ha, hlt'.trans hlt⟩

theorem Picks.not_mem_of_cycle {x : α} (hx : TransGen (Precedes after pending) x x) : x ∉ done :=
  fun hdone => lt_irrefl _ (h.idxOf_lt_of_path hx hdone).2

theorem Picks.cycle_left_iff {x : α} : TransGen (Precedes after (pending.filter fun y => y ∉ done)) x x ↔
    TransGen (Precedes after pending) x x := by
  have hleft {y : α} : y ∈ pending.filter (fun y => y ∉ done) ↔ y ∈ pending ∧ y ∉ done := by
    rw [List.mem_filter, decide_eq_true_eq]
  constructor
  · intro hx
    exact TransGen.mono (fun a b hab => ⟨(hleft.mp hab.1).1, (hleft.mp hab.2.1).1, hab.2.2⟩) _ _ hx
  · -- Whatever is met on the way round is on a cycle itself.
    have hstep {a b : α} (hab : Precedes after pending a b)
        (hba : ReflTransGen (Precedes after pending) b a) :
        Precedes after (pending.filter fun y => y ∉ done) a b :=
      ⟨hleft.mpr ⟨hab.1, h.not_mem_of_cycle (.head' hab hba)⟩,
        hleft.mpr ⟨hab.2.1, h.not_mem_of_cycle (.tail' hba hab)⟩, hab.2.2⟩
    have hround {y : α} (hxy : TransGen (Precedes after pending) x y)
        (hyx : ReflTransGen (Precedes after pending) y x) :
        TransGen (Precedes after (pending.filter fun y => y ∉ done)) x y := by
      induction hxy with
      | single hxy => exact .single (hstep hxy hyx)
      | tail hxb hbc ih => exact (ih (.head hbc hyx)).tail (hstep hbc (hyx.trans hxb.to_reflTransGen))
    exact fun hx => hround hx .refl

theorem Picks.length_eq_iff (hnodup : pending.Nodup) :
    done.length = pending.length ↔ ∀ x, ¬ TransGen (Precedes after pending) x x := by
  constructor
  · intro hlength x hx
    exact h.not_mem_of_cycle hx ((h.perm hnodup hlength).mem_iff.mpr (Precedes.mem_of_path hx))
  · intro hacyclic
    refine ((List.perm_ext_iff_of_nodup (h.nodup hnodup) hnodup).mpr
      fun x => ⟨fun hx => h.subset hx, fun hx => ?_⟩).length_eq
    -- Otherwise what is left over would have no first member.
    by_contra hleft
    let R (a b : {x // x ∈ pending}) : Prop := TransGen (Precedes after pending) a.1 b.1
    have : IsTrans _ R := ⟨fun _ _ _ => TransGen.trans⟩
    have : Std.Irrefl R := ⟨fun a => hacyclic a.1⟩
    obtain ⟨m, hm, hmin⟩ := (Finite.wellFounded_of_trans_of_irrefl R).has_min {a | a.1 ∉ done}
      ⟨⟨x, hx⟩, hleft⟩
    obtain ⟨y, hy, hydone, hafter⟩ := h.exists_before hnodup m.2 hm
    exact hmin ⟨y, hy⟩ hydone (.single ⟨hy, m.2, hafter⟩)

end Picks

theorem pairwise_lt_mergeSort {ids : List NodeId} (h : ids.Nodup) :
    (ids.mergeSort fun a b => a ≤ b).Pairwise (· < ·) := by
  have hne : (ids.mergeSort fun a b => a ≤ b).Nodup := (List.mergeSort_perm _ _).nodup_iff.mpr h
  exact ((List.pairwise_mergeSort' (· ≤ ·) ids).and hne).imp fun hab => lt_of_le_of_ne hab.1 hab.2

theorem nodup_onCycles {R : List (List α)} (h : R.flatten.Nodup) : (onCycles after R).Nodup :=
  h.sublist List.filter_sublist.flatten

/-- Just what lies on a cycle, in ascending order. -/
structure ListsCycles (R : NodeId → NodeId → Prop) (nodes : List NodeId) : Prop where
  mem : ∀ {id : NodeId}, id ∈ nodes ↔ TransGen R id id
  ascending : nodes.Pairwise (· < ·)

namespace Graph

variable {κ : Type} {g : Graph κ} {entry : Option NodeId} {isPure : Node κ → Bool}

def Among (g : Graph κ) (role : Role) (S : NodeId → Prop) (a b : NodeId) : Prop :=
  S a ∧ S b ∧ g.Leads role a b

/-- The components are the strongly connected ones. -/
def Components.Strong (components : Components) : Prop :=
  ∀ (after : NodeId → List NodeId) {nodes : List NodeId}, nodes.Nodup →
    IsStrong after nodes (components after nodes)

theorem strong_strongComponents :
    Components.Strong strongComponents := fun after _ hnodup => isStrong_strongComponents after hnodup

variable {components : Components}

theorem sorted_error {ids nodes : List NodeId} {role : Role} (hstrong : components.Strong)
    (hids : ids.Nodup) (h : g.sorted entry ids role components = .error nodes) :
    ListsCycles (Precedes (fun id => g.successors id role) ids) nodes := by
  have hpicks := g.sorted_picks entry hids role
  simp only [sorted] at h
  generalize walk (fun id => g.successors id role) (g.runsBefore entry) ids = order at h hpicks
  split at h
  · cases h
  · cases h
    have hleft : (ids.filter fun id => id ∉ order).Nodup := hids.filter _
    have hcomponents :=
      hstrong (restrict (fun id => g.successors id role) (ids.filter fun id => id ∉ order)) hleft
    refine ⟨fun {id} => ?_, pairwise_lt_mergeSort (nodup_onCycles (hcomponents.perm.nodup_iff.mpr hleft))⟩
    rw [List.mem_mergeSort, hcomponents.mem_onCycles_iff hleft, precedes_restrict, hpicks.cycle_left_iff]

theorem sorted_cases (hstrong : components.Strong) (entry : Option NodeId) {role : Role}
    {S : NodeId → Prop} {ids : List NodeId} (hmem : ∀ {id : NodeId}, id ∈ ids ↔ S id)
    (hids : ids.Nodup)
    (hsees : ∀ {a b : NodeId}, S a → S b → (b ∈ g.successors a role ↔ g.Leads role a b)) :
    ((∃ order, g.sorted entry ids role components = .ok order) ∧ ∀ id, ¬ TransGen (g.Among role S) id id) ∨
      ∃ nodes, g.sorted entry ids role components = .error nodes ∧
        (∃ id, TransGen (g.Among role S) id id) ∧
        ListsCycles (g.Among role S) nodes := by
  have hamong : Precedes (fun id => g.successors id role) ids = g.Among role S := by
    funext a b
    rw [Precedes, Among, hmem, hmem]
    exact propext (and_congr_right fun ha => and_congr_right fun hb => hsees ha hb)
  have hall := (g.sorted_picks entry hids role).length_eq_iff hids
  rw [hamong] at hall
  by_cases hlength : (walk (fun id => g.successors id role) (g.runsBefore entry) ids).length = ids.length
  · exact Or.inl ⟨⟨_, if_pos hlength⟩, hall.mp hlength⟩
  · have herror : g.sorted entry ids role components = .error _ := if_neg hlength
    exact Or.inr ⟨_, herror, not_forall_not.mp (mt hall.mpr hlength),
      hamong ▸ sorted_error hstrong hids herror⟩

/-- What comes of the search for a schedule, if it comes to no vacant id. -/
def scheduled? (g : Graph κ) (entry : Option NodeId) (isPure : Node κ → Bool)
    (components : Components := strongComponents) :
    Option (Except ScheduleError Schedule) :=
  if g.scheduleStrays entry isPure then none else some (g.schedule entry isPure components)

/-- The search for a schedule sees the links: it comes to no vacant id, and between the nodes it
sorts it finds the links at the nodes they come from. -/
structure Transparent (g : Graph κ) (entry : Option NodeId) (isPure : Node κ → Bool) : Prop where
  stays : g.scheduleStrays entry isPure = false
  control : ∀ {a b : NodeId}, g.Impure isPure a → g.Impure isPure b →
    (b ∈ g.successors a .control ↔ g.Leads .control a b)
  data : ∀ {a b : NodeId}, g.Pure isPure a → g.Pure isPure b →
    (b ∈ g.successors a .data ↔ g.Leads .data a b)

theorem transparent_of_unthreaded (h : g.threads = none) (entry : Option NodeId) (isPure : Node κ → Bool) :
    g.Transparent entry isPure where
  stays := by
    have hstrays (role : Role) (d : Direction) (ids : List NodeId) : ids.any (g.strays role d) =
        false := by
      simp only [strays, h, Option.isSome_none, Bool.false_and, List.any_eq_false,
        Bool.false_eq_true, not_false_eq_true, implies_true]
    simp only [scheduleStrays, hstrays, Bool.false_or]
    split
    · rfl
    · split <;> rfl
  control ha hb := (bilateral_of_unthreaded h .control).successors ha.contains hb.contains
  data ha hb := (bilateral_of_unthreaded h .data).successors ha.contains hb.contains

abbrev ControlCycle (g : Graph κ) (isPure : Node κ → Bool) (id : NodeId) : Prop :=
  TransGen (g.Among .control (g.Impure isPure)) id id

abbrev DataCycle (g : Graph κ) (isPure : Node κ → Bool) (id : NodeId) : Prop :=
  TransGen (g.Among .data (g.Pure isPure)) id id

/-- The schedule tells the cycles of control links or, if there are none, those of data links. -/
structure Diagnoses (g : Graph κ) (isPure : Node κ → Bool) (r : Except ScheduleError Schedule) : Prop where
  fails : (∃ e, r = .error e) ↔ (∃ id, g.ControlCycle isPure id) ∨ ∃ id, g.DataCycle isPure id
  control : (∃ id, g.ControlCycle isPure id) →
    ∃ nodes, r = .error (.controlCycle nodes) ∧ ListsCycles (g.Among .control (g.Impure isPure)) nodes
  data : (∀ id, ¬ g.ControlCycle isPure id) → (∃ id, g.DataCycle isPure id) →
    ∃ nodes, r = .error (.dataCycle nodes) ∧ ListsCycles (g.Among .data (g.Pure isPure)) nodes

/-- A schedule fails just if links go in a circle, and then names just the nodes on circles, once. -/
theorem schedule_diagnoses (hstrong : components.Strong) (h : g.Transparent entry isPure) :
    ∃ r, g.scheduled? entry isPure components = some r ∧ g.Diagnoses isPure r := by
  have himpure {id : NodeId} : id ∈ g.findNodes (fun n => !isPure n) ↔ g.Impure isPure id := by
    simp only [mem_findNodes, Impure, Bool.not_eq_true']
  refine ⟨g.schedule entry isPure components, by rw [scheduled?, h.stays]; rfl, ?_⟩
  rcases sorted_cases hstrong entry himpure (g.nodup_findNodes _) h.control with
    ⟨⟨linear, hlinear⟩, hno⟩ | ⟨nodes, hnodes, hcycle, hlists⟩
  · rcases sorted_cases hstrong none mem_findNodes (g.nodup_findNodes _) h.data with
      ⟨⟨order, horder⟩, hno'⟩ | ⟨nodes, hnodes, hcycle, hlists⟩
    · have hschedule : ∃ s, g.schedule entry isPure components = .ok s :=
        ⟨_, by simp only [schedule, hlinear, horder]; rfl⟩
      obtain ⟨s, hschedule⟩ := hschedule
      rw [hschedule]
      refine ⟨iff_of_false ?_ (not_or.mpr ⟨not_exists.mpr hno, not_exists.mpr hno'⟩),
        fun hc => absurd hc (not_exists.mpr hno),
        fun _ hd => absurd hd (not_exists.mpr hno')⟩
      rintro ⟨e, he⟩
      cases he
    · have hschedule : g.schedule entry isPure components = .error (.dataCycle nodes) := by
        simp only [schedule, hlinear, hnodes]
      rw [hschedule]
      exact ⟨iff_of_true ⟨_, rfl⟩ (Or.inr hcycle), fun hc => absurd hc (not_exists.mpr hno),
        fun _ _ => ⟨nodes, rfl, hlists⟩⟩
  · have hschedule : g.schedule entry isPure components = .error (.controlCycle nodes) := by
      simp only [schedule, hnodes]
    rw [hschedule]
    exact ⟨iff_of_true ⟨_, rfl⟩ (Or.inl hcycle), fun _ => ⟨nodes, rfl, hlists⟩,
      fun hno => absurd hcycle (not_exists.mpr hno)⟩

/-- An entry leads to a call and a branch, which leads back to the call or on to another one. -/
def eddy : ScriptGraph :=
  { name := "eddy"
    slots := [some (ScriptNode.entry "open"), some { ScriptNode.call "push" with order := 1 },
      some { ScriptNode.branch with order := 2 }, some { ScriptNode.call "ring" with order := 3 }]
    links := [⟨3, ⟨2, 3⟩, ⟨3, 0⟩, .control⟩, ⟨2, ⟨2, 2⟩, ⟨1, 0⟩, .control⟩, ⟨1, ⟨1, 1⟩, ⟨2, 0⟩, .control⟩,
      ⟨0, ⟨0, 0⟩, ⟨1, 0⟩, .control⟩]
    linkBound := 4
    nextOrder := 4 }

/-- Neither the entry nor the call behind the cycle is named. -/
theorem eddy_diagnosed : eddy.Transparent (some 0) Node.isPure ∧
    eddy.scheduled? (some 0) Node.isPure = some (.error (.controlCycle [1, 2])) ∧
    eddy.Diagnoses Node.isPure (.error (.controlCycle [1, 2])) := by
  have htransparent : eddy.Transparent (some 0) Node.isPure := transparent_of_unthreaded rfl _ _
  have hscheduled : eddy.scheduled? (some 0) Node.isPure = some (.error (.controlCycle [1, 2])) := by
    rw [scheduled?, htransparent.stays]
    cbv
  obtain ⟨r, hr, hdiagnoses⟩ := schedule_diagnoses strong_strongComponents htransparent
  cases hscheduled.symm.trans hr
  exact ⟨htransparent, hscheduled, hdiagnoses⟩

/-- A graph that is read with a control link from a vacant id to itself. -/
def whirlArena : Arena NodeKind :=
  ⟨[ScriptNode.literal ⟨.int, .single⟩ "1"], [1], [some ⟨0, ⟨1, 1⟩, ⟨1, 0⟩, .control⟩]⟩

def whirl : ScriptGraph := ((whirlArena.toGraph "whirl" 1).addNode (ScriptNode.call "knock")).2

/-- A graph that is read with a control link to a vacant id. -/
def brinkArena : Arena NodeKind := ⟨[ScriptNode.call "push"], [1], [some ⟨0, ⟨0, 1⟩, ⟨1, 0⟩, .control⟩]⟩

def brink : ScriptGraph := brinkArena.toGraph "brink" 1

/-- In the one graph, the link of the node to itself is lost to the schedule. In the other one no
links go in a circle, but there is no telling of a schedule. -/
theorem whirl_undiagnosed :
    (whirlArena.check = .ok () ∧ whirl.torn = false ∧ whirl.ControlCycle Node.isPure 1 ∧
      ∃ s, whirl.scheduled? none Node.isPure = some (.ok s) ∧ s.linear = [1] ∧
        ¬ whirl.Diagnoses Node.isPure (.ok s)) ∧
    brinkArena.check = .ok () ∧ brink.torn = false ∧ (∀ id, ¬ brink.ControlCycle Node.isPure id) ∧
      (∀ id, ¬ brink.DataCycle Node.isPure id) ∧ brink.scheduled? none Node.isPure = none := by
  have hcycle : whirl.ControlCycle Node.isPure 1 :=
    .single ⟨⟨_, rfl, rfl⟩, ⟨_, rfl, rfl⟩, ⟨0, ⟨1, 1⟩, ⟨1, 0⟩, .control⟩, by decide, rfl, rfl, rfl⟩
  have hscheduled : whirl.scheduled? none Node.isPure = some (.ok ⟨[1], [(1, [])]⟩) := by
    cbv
  -- The only link leads to an id where no node is.
  have hno {role : Role} {S : NodeId → Prop} (hS : ∀ {k : NodeId}, S k → brink.contains k = true)
      (id : NodeId) :
      ¬ TransGen (brink.Among role S) id id := by
    intro hid
    obtain ⟨b, ⟨-, hb, l, hl, -, -, rfl⟩, -⟩ := TransGen.head'_iff.mp hid
    cases List.mem_singleton.mp hl
    exact absurd (hS hb) (by decide)
  refine ⟨⟨by decide, by decide, hcycle, _, hscheduled, rfl, fun hdiagnoses => ?_⟩,
    by decide, by decide, hno Impure.contains,
    hno Pure.contains, ?_⟩
  · obtain ⟨e, he⟩ := hdiagnoses.fails.mpr (Or.inl ⟨1, hcycle⟩)
    cases he
  · cbv

end Graph

end VisualScript
