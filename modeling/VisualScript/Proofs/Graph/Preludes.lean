import Mathlib.Data.Set.Card
import VisualScript.Format.Graph
import VisualScript.Proofs.Graph.DataFlow
import VisualScript.Script.Shape

namespace VisualScript

theorem Forward.filter {α : Type} [DecidableEq α] {R : α → α → Prop} {l : List α} (h : Forward R l)
    (hl : l.Nodup) (p : α → Bool) :
    Forward R (l.filter p) := by
  induction l with
  | nil => exact h
  | cons x l ih =>
      obtain ⟨hx, hl⟩ := List.nodup_cons.mp hl
      have hrest := ih (h.tail hx) hl
      rw [List.filter_cons]
      split
      · exact hrest.cons fun a ha => h.not_head (List.cons_subset_cons x (List.filter_subset_self l) ha)
      · exact hrest

namespace Schedule

variable {s : Schedule} {p : NodeId}

def emitted (s : Schedule) (ids : List NodeId) : List NodeId := ids.flatMap fun id => s.prelude id ++ [id]

theorem emitted_cons (s : Schedule) (c : NodeId) (rest : List NodeId) :
    s.emitted (c :: rest) = s.prelude c ++ c :: s.emitted rest := by
  rw [emitted, List.flatMap_cons, List.append_assoc]
  rfl

theorem getLast?_emitted (s : Schedule) (ids : List NodeId) : (s.emitted ids).getLast? = ids.getLast? := by
  induction ids using List.reverseRecOn with
  | nil => rfl
  | append_singleton ids c _ => simp [emitted]

theorem count_emitted {ids : List NodeId} (hp : p ∉ ids) (hnodup : ∀ c ∈ ids, (s.prelude c).Nodup) :
    (s.emitted ids).count p = (ids.filter fun c => p ∈ s.prelude c).length := by
  induction ids with
  | nil => rfl
  | cons c rest ih =>
      obtain ⟨hc, hrest⟩ := not_or.mp (mt List.mem_cons.mpr hp)
      obtain ⟨hprelude, hpreludes⟩ := List.forall_mem_cons.mp hnodup
      rw [emitted_cons, List.count_append, List.count_cons_of_ne (Ne.symm hc), ih hrest hpreludes,
        hprelude.count, List.filter_cons]
      by_cases hmem : p ∈ s.prelude c
      · simp [hmem, Nat.add_comm]
      · simp [hmem]

theorem exists_block_of_emitted {ids front back : List NodeId} (hp : p ∉ ids)
    (h : s.emitted ids = front ++ p :: back) :
    ∃ done c todo before behind, ids = done ++ c :: todo ∧ s.prelude c = before ++ p :: behind ∧
      front = s.emitted done ++ before ∧ back = behind ++ c :: s.emitted todo := by
  -- Along the scheduled nodes: the place is in the prelude of the first one, or comes behind it.
  induction ids generalizing front with
  | nil => simp [emitted] at h
  | cons c rest ih =>
      obtain ⟨hc, hrest⟩ := not_or.mp (mt List.mem_cons.mpr hp)
      rw [emitted_cons] at h
      rcases List.append_eq_append_iff.mp h with ⟨l, hfront, hl⟩ | ⟨l, hprelude, hl⟩
      · rcases List.cons_eq_append_iff.mp hl with ⟨_, hl⟩ | ⟨l, rfl, hbehind⟩
        · cases hl
          exact absurd rfl hc
        · obtain ⟨done, d, todo, before, behind, rfl, hd, rfl, hback⟩ := ih hrest hbehind
          refine ⟨c :: done, d, todo, before, behind, rfl, hd, ?_, hback⟩
          rw [hfront, emitted_cons, List.append_assoc, List.cons_append]
      · rcases List.cons_eq_append_iff.mp hl with ⟨_, hl⟩ | ⟨l, rfl, hback⟩
        · cases hl
          exact absurd rfl hc
        · exact ⟨[], c, rest, front, l, rfl, hprelude, rfl, hback⟩

end Schedule

namespace Graph

variable {κ : Type} {g : Graph κ} {entry : Option NodeId} {isPure : Node κ → Bool} {s : Schedule}

/-- Each scheduled node has what it reads from, directly or through pure nodes, emitted right before it. -/
structure Supplies (g : Graph κ) (isPure : Node κ → Bool) (s : Schedule) : Prop where
  mem : ∀ {c p : NodeId}, c ∈ s.linear → (p ∈ s.prelude c ↔ g.Pure isPure p ∧ g.Feeds (g.Pure isPure) p c)
  nodup : ∀ {c : NodeId}, c ∈ s.linear → (s.prelude c).Nodup
  forward : ∀ {c : NodeId}, c ∈ s.linear → Forward (g.Leads .data) (s.prelude c)
  count : ∀ {p : NodeId}, g.Pure isPure p → s.emissionOrder.count p =
    {c | c ∈ s.linear ∧ g.Feeds (g.Pure isPure) p c}.ncard
  between : ∀ {p : NodeId} {front back : List NodeId}, g.Pure isPure p →
    s.emissionOrder = front ++ p :: back →
    ∃ done c todo before behind, s.linear = done ++ c :: todo ∧ s.prelude c = before ++ p :: behind ∧
      front = s.emitted done ++ before ∧ (s.emitted done).getLast? = done.getLast? ∧
        back = behind ++ c :: s.emitted todo

theorem lookup_map_self {f : NodeId → List NodeId} {l : List NodeId} {c : NodeId} (hc : c ∈ l) :
    (l.map fun id => (id, f id)).lookup c = some (f c) := by
  induction l with
  | nil => cases hc
  | cons a l ih =>
      rw [List.map_cons, List.lookup_cons]
      rcases List.mem_cons.mp hc with rfl | hc
      · rw [beq_self_eq_true]
      · cases he : c == a with
        | false => exact ih hc
        | true => rw [beq_iff_eq.mp he]

theorem exists_order_of_schedule (h : g.schedule entry isPure = .ok s) :
    ∃ order, g.sorted none (g.findNodes isPure) .data = .ok order ∧ ∀ c ∈ s.linear,
    s.prelude c = g.preludeOf order c := by
  obtain ⟨order, _, horder, hpreludes⟩ := schedule_cases h
  refine ⟨order, horder, fun c hc => ?_⟩
  rw [Schedule.prelude, hpreludes, lookup_map_self hc]
  rfl

variable {order : List NodeId}

section

variable (h : g.sorted none (g.findNodes isPure) .data = .ok order)
include h

theorem mem_order {p : NodeId} : p ∈ order ↔ g.Pure isPure p :=
  (sorted_ok h (g.nodup_findNodes isPure)).2.mem_iff.trans mem_findNodes

theorem nodup_order : order.Nodup :=
  (sorted_ok h (g.nodup_findNodes isPure)).2.nodup_iff.mpr (g.nodup_findNodes isPure)

theorem forward_order (hd : g.Bilateral .data) :
    Forward (g.Leads .data) order :=
  (sorted_ok h (g.nodup_findNodes isPure)).1.forward.mono fun _ ha _ hb hab =>
    (hd.successors ((mem_order h).mp ha).contains ((mem_order h).mp hb).contains).mpr hab

theorem mem_preludeOf (hd : g.Bilateral .data) {c p : NodeId} (hc : g.contains c = true) :
    p ∈ g.preludeOf order c ↔ g.Pure isPure p ∧ g.Feeds (g.Pure isPure) p c := by
  have hnext {a b : NodeId} (hb : b ∈ [c] ∨ g.Pure isPure b) :
      a ∈ g.predecessors b .data ∧ a ∈ order ↔ g.Pure isPure a ∧ g.Leads .data a b := by
    have hb : g.contains b = true := hb.elim (fun hb => List.mem_singleton.mp hb ▸ hc) Pure.contains
    rw [mem_order h, and_comm]
    exact and_congr_right fun ha => hd.predecessors ha.contains hb
  have hread := mem_closure_sources (x := p) hnext
  rw [List.flatMap_singleton] at hread
  simp only [preludeOf, List.mem_filter, decide_eq_true_eq, hread, mem_order h, List.mem_singleton,
    exists_eq_left, and_self_left]

end

/-- A schedule supplies each node with what it reads from, as long as data links are found at both of
their ends. -/
theorem schedule_supplies (h : g.schedule entry isPure = .ok s) (hd : g.Bilateral .data) :
    g.Supplies isPure s := by
  obtain ⟨order, horder, hprelude⟩ := exists_order_of_schedule h
  have hmem {c p : NodeId} (hc : c ∈ s.linear) : p ∈ s.prelude c ↔
      g.Pure isPure p ∧ g.Feeds (g.Pure isPure) p c := by
    rw [hprelude c hc]
    exact mem_preludeOf horder hd (Impure.contains ((mem_linear h).mp hc))
  have hnodup {c : NodeId} (hc : c ∈ s.linear) : (s.prelude c).Nodup := by
    rw [hprelude c hc]
    exact (nodup_order horder).filter _
  have hnot {p : NodeId} (hp : g.Pure isPure p) : p ∉ s.linear :=
    fun hmem => hp.not_impure ((mem_linear h).mp hmem)
  refine ⟨hmem, hnodup, fun {c} hc => ?_, fun {p} hp => ?_, fun {p front back} hp hfront => ?_⟩
  · rw [hprelude c hc]
    exact (forward_order horder hd).filter (nodup_order horder) _
  · -- A node is scheduled once, so the consumers can be counted along the schedule.
    have hset : {c | c ∈ s.linear ∧ g.Feeds (g.Pure isPure) p c} =
        ((s.linear.filter fun c => p ∈ s.prelude c).toFinset : Set NodeId) := by
      ext c
      simp only [Set.mem_ofPred_eq, List.coe_toFinset, List.mem_filter, decide_eq_true_eq]
      exact and_congr_right fun hc => ((hmem hc).trans (and_iff_right hp)).symm
    rw [hset, Set.ncard_coe_finset, List.toFinset_card_of_nodup ((schedule_nodup h).filter _)]
    exact Schedule.count_emitted (hnot hp) fun c hc => hnodup hc
  · obtain ⟨done, c, todo, before, behind, hlinear, hc, hfront, hback⟩ :=
      Schedule.exists_block_of_emitted (hnot hp) hfront
    exact ⟨done, c, todo, before, behind, hlinear, hc, hfront, s.getLast?_emitted done, hback⟩

def scale (function : String) :
    ScriptNode := (ScriptNode.pureCall function).addPorts
      [.dataIn "of" ⟨.int, .single⟩, .dataOut "is" ⟨.int, .single⟩]

def strike (function : String) : ScriptNode :=
  (ScriptNode.call function).addPorts [.dataIn "force" ⟨.int, .single⟩]

/-- Two calls read a number, the first one through the sum of its double and its half. The sum was
authored before these. -/
def carillon : ScriptGraph :=
  { name := "carillon"
    slots := [some (ScriptNode.entry "open"), some { strike "push" with order := 1 },
      some { strike "ring" with order := 2 },
      some { ScriptNode.literal ⟨.int, .single⟩ "3" with order := 3 },
      some { (scale "sum").addPorts [.dataIn "and" ⟨.int, .single⟩] with order := 4 },
      some { scale "twice" with order := 5 }, some { scale "half" with order := 6 }]
    links := [⟨7, ⟨3, 0⟩, ⟨2, 2⟩, .data⟩, ⟨6, ⟨3, 0⟩, ⟨6, 0⟩, .data⟩, ⟨5, ⟨3, 0⟩, ⟨5, 0⟩, .data⟩,
      ⟨4, ⟨6, 1⟩, ⟨4, 2⟩, .data⟩,
      ⟨3, ⟨5, 1⟩, ⟨4, 0⟩, .data⟩, ⟨2, ⟨4, 1⟩, ⟨1, 2⟩, .data⟩, ⟨1, ⟨1, 1⟩, ⟨2, 0⟩, .control⟩,
      ⟨0, ⟨0, 0⟩, ⟨1, 0⟩, .control⟩]
    linkBound := 8
    nextOrder := 7 }

theorem carillon_supplied :
    carillon.Bilateral .data ∧ ∃ s, carillon.schedule (some 0) Node.isPure = .ok s ∧
    s.emissionOrder = [0, 3, 5, 6, 4, 1, 3, 2] ∧ carillon.Supplies Node.isPure s := by
  have hbilateral : carillon.Bilateral .data := bilateral_of_unthreaded rfl .data
  have hschedule : carillon.schedule (some 0) Node.isPure =
      .ok ⟨[0, 1, 2], [(0, []), (1, [3, 5, 6, 4]), (2, [3])]⟩ := by cbv
  exact ⟨hbilateral, _, hschedule, by decide, schedule_supplies hschedule hbilateral⟩

/-- A graph that is read with a data link from a vacant id to a pure node, which a call reads. -/
def upstreamArena : Arena NodeKind :=
  ⟨[scale "half", { strike "push" with order := 1 }], [0],
    [some ⟨0, ⟨0, 1⟩, ⟨1, 0⟩, .data⟩, some ⟨1, ⟨1, 1⟩, ⟨2, 2⟩, .data⟩]⟩

def upstream : ScriptGraph := ((upstreamArena.toGraph "upstream" 2).addNode (scale "twice")).2

/-- A graph that is read with a data link from a pure node to a vacant id. -/
def downstreamArena : Arena NodeKind := ⟨[scale "half"], [0], [some ⟨0, ⟨1, 1⟩, ⟨0, 2⟩, .data⟩]⟩

def downstream : ScriptGraph := ((downstreamArena.toGraph "downstream" 1).addNode (strike "push")).2

/-- In the one graph, the node that took the id is emitted behind the node that reads from it. In the
other one, what it reads from is not emitted at all. -/
theorem drift_unsupplied :
    (upstreamArena.check = .ok () ∧ upstream.torn = false ∧
      upstream.scheduleStrays none Node.isPure = false ∧
      upstream.Pure Node.isPure 0 ∧ upstream.Pure Node.isPure 1 ∧ upstream.Leads .data 0 1 ∧
      ∃ s, upstream.schedule none Node.isPure = .ok s ∧ s.prelude 2 = [1, 0] ∧
        ¬ upstream.Supplies Node.isPure s) ∧
    downstreamArena.check = .ok () ∧ downstream.torn = false ∧
      downstream.scheduleStrays none Node.isPure = false ∧
      downstream.Pure Node.isPure 1 ∧ downstream.Leads .data 1 0 ∧
      ∃ s, downstream.schedule none Node.isPure = .ok s ∧ s.prelude 0 = [] ∧
        ¬ downstream.Supplies Node.isPure s := by
  have hup : upstream.Leads .data 0 1 := ⟨⟨0, ⟨0, 1⟩, ⟨1, 0⟩, .data⟩, by decide, rfl, rfl, rfl⟩
  have hdown : downstream.Leads .data 1 0 := ⟨⟨0, ⟨1, 1⟩, ⟨0, 2⟩, .data⟩, by decide, rfl, rfl, rfl⟩
  have hpure : downstream.Pure Node.isPure 1 := ⟨_, rfl, rfl⟩
  have hupSchedule : upstream.schedule none Node.isPure = .ok ⟨[2], [(2, [1, 0])]⟩ := by cbv
  have hdownSchedule : downstream.schedule none Node.isPure = .ok ⟨[0], [(0, [])]⟩ := by cbv
  refine ⟨⟨by decide, by decide, ?_, ⟨_, rfl, rfl⟩, ⟨_, rfl, rfl⟩, hup, _, hupSchedule, rfl, fun hs => ?_⟩,
    by decide, by decide, ?_, hpure, hdown, _, hdownSchedule, rfl, fun hs => ?_⟩
  · cbv
  · have hlt := hs.forward (c := 2) (by simp) 0 (by decide) 1 (by decide) hup
    exact absurd hlt (by decide)
  · cbv
  · exact absurd ((hs.mem (c := 0) (by simp)).mpr ⟨hpure, .link hdown⟩) List.not_mem_nil

end Graph

end VisualScript
