import Mathlib.Data.Prod.Lex
import VisualScript.Format.Graph
import VisualScript.Proofs.Graph.DataFlow
import VisualScript.Script.Shape

namespace VisualScript

namespace Graph

variable {κ : Type} {g : Graph κ} {entry : Option NodeId} {isPure : Node κ → Bool}

/-- What nodes are sorted by: the entry comes first, then the authoring order counts, then the id. -/
def key (g : Graph κ) (entry : Option NodeId) (id : NodeId) : ℕ ×ₗ ℕ ×ₗ ℕ :=
  toLex (if some id = entry then 0 else 1, toLex (g.orderOf id, id))

theorem key_injective (g : Graph κ) (entry : Option NodeId) :
    Function.Injective (g.key entry) := fun _ _ h =>
  congrArg (fun k : ℕ ×ₗ ℕ ×ₗ ℕ => (ofLex (ofLex k).2).2) h

theorem runsBefore_iff_key (g : Graph κ) (entry : Option NodeId) (a b : NodeId) :
    g.runsBefore entry a b = true ↔ g.key entry a ≤ g.key entry b := by
  rw [runsBefore_iff, key, key, Prod.Lex.toLex_le_toLex, Prod.Lex.toLex_le_toLex]

/-- The control links between impure nodes are found at the nodes they come from. -/
def Lists (g : Graph κ) (isPure : Node κ → Bool) : Prop :=
  ∀ {a b : NodeId}, g.Impure isPure a → g.Impure isPure b →
    (b ∈ g.successors a .control ↔ g.Leads .control a b)

/-- An order of the impure nodes in which control links lead forward. -/
structure Orders (g : Graph κ) (isPure : Node κ → Bool) (l : List NodeId) : Prop where
  mem : ∀ {id : NodeId}, id ∈ l ↔ g.Impure isPure id
  nodup : l.Nodup
  forward : Forward (g.Leads .control) l

theorem lists_of_unthreaded (h : g.threads = none) (isPure : Node κ → Bool) :
    g.Lists isPure := fun ha hb =>
  (bilateral_of_unthreaded h .control).successors ha.contains hb.contains

variable {s : Schedule} {components : Components}

theorem schedule_orders (h : g.schedule entry isPure components = .ok s) (hlists : g.Lists isPure) :
    g.Orders isPure s.linear := by
  refine ⟨mem_linear h, schedule_nodup h, (schedule_linear h).1.forward.mono fun a ha b hb hab => ?_⟩
  exact (hlists ((mem_linear h).mp ha) ((mem_linear h).mp hb)).mpr hab

theorem Orders.forward_successors {l : List NodeId} (h : g.Orders isPure l) (hlists : g.Lists isPure) :
    Forward (fun a b => b ∈ g.successors a .control) l :=
  h.forward.mono fun _ ha _ hb hab => (hlists (h.mem.mp ha) (h.mem.mp hb)).mp hab

/-- The linear order of a schedule is the least order of the impure nodes in which control links lead
forward. So it starts with the entry, if that is impure and no impure node leads to it. -/
theorem schedule_least (h : g.schedule entry isPure components = .ok s) (hlists : g.Lists isPure) :
    g.Orders isPure s.linear ∧
    (∀ l, g.Orders isPure l → s.linear = l ∨
      List.Lex (fun a b => g.key entry a < g.key entry b) s.linear l) ∧
    ∀ e, entry = some e → g.Impure isPure e → (∀ a, g.Impure isPure a → ¬ g.Leads .control a e) →
      s.linear.head? = some e := by
  obtain ⟨hpicks, hperm⟩ := schedule_linear h
  refine ⟨schedule_orders h hlists, fun l hl => ?_, ?_⟩
  · have hsame : l.Perm s.linear :=
      (List.perm_ext_iff_of_nodup hl.nodup (schedule_nodup h)).mpr fun _ =>
        hl.mem.trans (mem_linear h).symm
    exact hpicks.least (g.key_injective entry) (fun a b => (g.runsBefore_iff_key entry a b).mp)
      (g.nodup_findNodes _)
      (hsame.trans hperm) (hl.forward_successors hlists)
  · rintro e rfl he hfirst
    exact head_linear h he fun a ha hae => hfirst a ha ((hlists ha he).mp hae)

/-- An entry that leads to a call which leads to another one, and a call that nothing leads to. -/
def relay : ScriptGraph :=
  { name := "relay"
    slots := [some (ScriptNode.call "push"), some { ScriptNode.entry "open" with order := 1 },
      some { ScriptNode.call "knock" with order := 2 }, some { ScriptNode.call "ring" with order := 3 }]
    links := [⟨1, ⟨2, 1⟩, ⟨0, 0⟩, .control⟩, ⟨0, ⟨1, 0⟩, ⟨2, 0⟩, .control⟩]
    linkBound := 2
    nextOrder := 4 }

theorem relay_least :
    relay.Lists Node.isPure ∧ ∃ s, relay.schedule (some 1) Node.isPure = .ok s ∧ s.linear = [1, 2, 0, 3] ∧
    relay.Orders Node.isPure s.linear ∧
    ∀ l, relay.Orders Node.isPure l → s.linear = l ∨
      List.Lex (fun a b => relay.key (some 1) a < relay.key (some 1) b) s.linear l := by
  have hlists : relay.Lists Node.isPure := lists_of_unthreaded rfl _
  have hschedule : relay.schedule (some 1) Node.isPure =
      .ok ⟨[1, 2, 0, 3], [(1, []), (2, []), (0, []), (3, [])]⟩ := by cbv
  obtain ⟨horders, hleast, _⟩ := schedule_least hschedule hlists
  exact ⟨hlists, _, hschedule, rfl, horders, hleast⟩

/-- A graph that is read with a control link from a vacant id. -/
def driftArena : Arena NodeKind := ⟨[ScriptNode.call "push"], [1], [some ⟨0, ⟨1, 1⟩, ⟨0, 0⟩, .control⟩]⟩

def drift : ScriptGraph := ((driftArena.toGraph "drift" 1).addNode (ScriptNode.call "knock")).2

/-- The link from the node that took the id is lost to the schedule. -/
theorem drift_out_of_order : driftArena.check = .ok () ∧ drift.torn = false ∧
    drift.Impure Node.isPure 0 ∧ drift.Impure Node.isPure 1 ∧ drift.Leads .control 1 0 ∧
    drift.scheduleStrays none Node.isPure = false ∧
    ∃ s, drift.schedule none Node.isPure = .ok s ∧ s.linear = [0, 1] ∧
      ¬ drift.Orders Node.isPure s.linear := by
  have hlink : drift.Leads .control 1 0 := ⟨⟨0, ⟨1, 1⟩, ⟨0, 0⟩, .control⟩, by decide, rfl, rfl, rfl⟩
  have hschedule : drift.schedule none Node.isPure = .ok ⟨[0, 1], [(0, []), (1, [])]⟩ := by cbv
  refine ⟨by decide, by decide, ⟨_, rfl, rfl⟩, ⟨_, rfl, rfl⟩, hlink, ?_, _, hschedule, rfl,
    fun horders => ?_⟩
  · cbv
  · have hlt := horders.forward 1 (by simp) 0 (by simp) hlink
    exact absurd hlt (by decide)

end Graph

end VisualScript
