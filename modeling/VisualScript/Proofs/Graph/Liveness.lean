import VisualScript.Graph.Liveness
import VisualScript.Proofs.Graph.Preludes
import VisualScript.Proofs.Graph.Representation

namespace VisualScript.Graph

variable {κ : Type} {g : Graph κ} {policy : PrunePolicy κ} {roots : List NodeId} {id : NodeId}

/-- A root that is there, or a node that control links lead to from one. -/
inductive Reached (g : Graph κ) (roots : List NodeId) : NodeId → Prop
  | root {r : NodeId} (hr : r ∈ roots) (h : g.contains r = true) : Reached g roots r
  | step {a b : NodeId} (ha : Reached g roots a) (hl : g.Leads .control a b)
      (hb : g.contains b = true) : Reached g roots b

/-- A node that is kept for its own sake: it runs, or the policy keeps it anyway. -/
def Kept (g : Graph κ) (policy : PrunePolicy κ) (roots : List NodeId) (id : NodeId) : Prop :=
  g.Reached roots id ∨ ∃ n, g.node? id = some n ∧ policy.keeps n = true

/-- A pure node that an impure node kept for its own sake reads from, directly or through such nodes. -/
def Needed (g : Graph κ) (policy : PrunePolicy κ) (roots : List NodeId) (via : NodeId → Prop)
    (id : NodeId) : Prop :=
  g.Pure policy.isPure id ∧ ∃ k, g.Kept policy roots k ∧ g.Impure policy.isPure k ∧ g.Feeds via id k

/-- A node that should stay: it is kept for its own sake, or needed by such a node. -/
def Live (g : Graph κ) (policy : PrunePolicy κ) (roots : List NodeId) (id : NodeId) : Prop :=
  g.Kept policy roots id ∨ g.Needed policy roots (g.Pure policy.isPure) id

/-- A pure node not kept for its own sake. The search for what is needed goes through these only. -/
def Loose (g : Graph κ) (policy : PrunePolicy κ) (roots : List NodeId) (id : NodeId) : Prop :=
  g.Pure policy.isPure id ∧ ¬ g.Kept policy roots id

def Found (g : Graph κ) (policy : PrunePolicy κ) (roots : List NodeId) (id : NodeId) : Prop :=
  g.Kept policy roots id ∨ g.Needed policy roots (g.Loose policy roots) id

theorem Reached.contains (h : g.Reached roots id) : g.contains id = true := by
  cases h with
  | root _ hc => exact hc
  | step _ _ hc => exact hc

theorem mem_nodeIds_iff_contains :
    id ∈ g.nodeIds ↔ g.contains id = true := mem_nodeIds.trans contains_iff.symm

theorem mem_control (hc : g.Bilateral .control) :
    id ∈ (g.liveSet policy roots).control ↔ g.Reached roots id := by
  have hids {a : NodeId} : a ∈ g.nodeIds ↔ g.contains a = true := mem_nodeIds_iff_contains
  refine mem_closure_iff.trans ⟨?_, fun h => ?_⟩
  · rintro ⟨r, hr, hin, hpath⟩
    induction hpath with
    | refl => exact .root hr (hids.mp hin)
    | tail _ hstep ih =>
        exact .step ih ((hc.successors ih.contains (hids.mp hstep.2)).mp hstep.1) (hids.mp hstep.2)
  · induction h with
    | root hr h => exact ⟨_, hr, hids.mpr h, .refl⟩
    | step ha hl hb ih =>
        obtain ⟨r, hr, hin, hpath⟩ := ih
        exact ⟨r, hr, hin, hpath.tail ⟨(hc.successors ha.contains hb).mpr hl, hids.mpr hb⟩⟩

theorem mem_kept (hc : g.Bilateral .control) :
    id ∈ (g.liveSet policy roots).control ∨ id ∈ (g.liveSet policy roots).forced ↔
      g.Kept policy roots id := by
  have hforced : id ∈ (g.liveSet policy roots).forced ↔
      (∃ n, g.node? id = some n ∧ policy.keeps n = true) ∧ id ∉ (g.liveSet policy roots).control := by
    refine List.mem_filter.trans (and_congr mem_findNodes ?_)
    rw [decide_eq_true_iff]
    rfl
  rw [hforced, mem_control hc, Kept]
  tauto

theorem mem_readersAmong {ids : List NodeId} :
    id ∈ g.readersAmong policy ids ↔ g.Impure policy.isPure id ∧ id ∈ ids := by
  rw [readersAmong, List.mem_filter, mem_findNodes, decide_eq_true_iff]
  simp only [Impure, Bool.not_eq_true']

theorem mem_pureSources {a b : NodeId} :
    a ∈ g.pureSources policy b ↔ g.Pure policy.isPure a ∧ a ∈ g.predecessors b .data := by
  rw [pureSources, List.mem_filter, Option.any_eq_true, and_comm]
  rfl

theorem mem_data (hc : g.Bilateral .control) (hd : g.Bilateral .data) :
    id ∈ (g.liveSet policy roots).data ↔
    g.Loose policy roots id ∧ ∃ k, g.Kept policy roots k ∧ g.Impure policy.isPure k ∧
      g.Feeds (g.Loose policy roots) id k := by
  have hkept {a : NodeId} : a ∈ (g.liveSet policy roots).control ++
    (g.liveSet policy roots).forced ↔ g.Kept policy roots a :=
    List.mem_append.trans (mem_kept hc)
  have hrest {a : NodeId} : a ∈ (g.nodeIds.filter fun id =>
      id ∉ (g.liveSet policy roots).control ∧ id ∉ (g.liveSet policy roots).forced) ↔
        g.contains a = true ∧ ¬ g.Kept policy roots a := by
    rw [List.mem_filter, mem_nodeIds_iff_contains, decide_eq_true_iff, ← not_or, mem_kept hc]
  have hnext {a b : NodeId} (hb : b ∈ g.readersAmong policy
      ((g.liveSet policy roots).control ++ (g.liveSet policy roots).forced) ∨
      g.Loose policy roots b) :
      a ∈ g.pureSources policy b ∧ a ∈ (g.nodeIds.filter fun id =>
        id ∉ (g.liveSet policy roots).control ∧ id ∉ (g.liveSet policy roots).forced) ↔
          g.Loose policy roots a ∧ g.Leads .data a b := by
    have hb : g.contains b = true :=
      hb.elim (fun hb => (mem_readersAmong.mp hb).1.contains) fun hb => hb.1.contains
    rw [mem_pureSources, hrest, Loose]
    constructor
    · rintro ⟨⟨ha, hread⟩, _, hnot⟩
      exact ⟨⟨ha, hnot⟩, (hd.predecessors ha.contains hb).mp hread⟩
    · rintro ⟨⟨ha, hnot⟩, hlink⟩
      exact ⟨⟨ha, (hd.predecessors ha.contains hb).mpr hlink⟩, ha.contains, hnot⟩
  refine (mem_closure_sources hnext).trans (and_congr_right fun _ => exists_congr fun k => ?_)
  rw [mem_readersAmong, hkept, and_assoc]
  tauto

theorem contains_liveSet_iff (hc : g.Bilateral .control) (hd : g.Bilateral .data) :
    (g.liveSet policy roots).contains id = true ↔ g.Found policy roots id := by
  have hkept : id ∈ (g.liveSet policy roots).control ∨ id ∈ (g.liveSet policy roots).forced ↔
      g.Kept policy roots id := mem_kept hc
  simp only [LiveSet.contains, Bool.or_eq_true, decide_eq_true_eq, mem_data hc hd, or_right_comm,
    hkept, Found, Needed, Loose]
  -- A node that is not loose is kept for its own sake, or not pure at all.
  tauto

theorem Found.live (h : g.Found policy roots id) : g.Live policy roots id :=
  h.imp_right fun ⟨hpure, k, hk, himpure, hfeeds⟩ => ⟨hpure, k, hk, himpure, hfeeds.mono fun _ => And.left⟩

/-- Where a pure node is kept for its own sake and needed as well, what it reads from is found in some
other way. -/
def Unhidden (g : Graph κ) (policy : PrunePolicy κ) (roots : List NodeId) : Prop :=
  ∀ {p q : NodeId}, g.Kept policy roots p → g.Needed policy roots (g.Pure policy.isPure) p →
    g.Pure policy.isPure q →
    g.Leads .data q p → g.Found policy roots q

theorem Unhidden.found (h : g.Unhidden policy roots) (hlive : g.Live policy roots id) :
    g.Found policy roots id := by
  rcases hlive with hkept | ⟨hpure, k, hk, himpure, hfeeds⟩
  · exact Or.inl hkept
  · induction hfeeds with
    | link hl => exact Or.inr ⟨hpure, _, hk, himpure, .link hl⟩
    | @through a m k hl hm hrest ih =>
        by_cases hkept : g.Kept policy roots m
        · exact h hkept ⟨hm, k, hk, himpure, hrest⟩ hpure hl
        · obtain ⟨_, k, hk, himpure, hfeeds⟩ := (ih hm hk himpure).resolve_left hkept
          exact Or.inr ⟨hpure, k, hk, himpure, .through hl ⟨hm, hkept⟩ hfeeds⟩

/-- The live set holds what the search comes to. This is every node that should stay, if and only if no
pure node that is kept for its own sake hides what it reads from. -/
theorem liveSet_live_iff (hc : g.Bilateral .control) (hd : g.Bilateral .data) :
    (∀ id, (g.liveSet policy roots).contains id = true ↔ g.Found policy roots id) ∧
      ((∀ id, (g.liveSet policy roots).contains id = true ↔ g.Live policy roots id) ↔
        g.Unhidden policy roots) := by
  refine ⟨fun id => contains_liveSet_iff hc hd, fun h => ?_, fun h id => ?_⟩
  · rintro p q - ⟨hp, k, hk, himpure, hfeeds⟩ hq hl
    exact (contains_liveSet_iff hc hd).mp ((h q).mpr (Or.inr ⟨hq, k, hk, himpure, .through hl hp hfeeds⟩))
  · exact (contains_liveSet_iff hc hd).trans ⟨Found.live, h.found⟩

def keepTitled (title : String) : PrunePolicy NodeKind :=
  { isPure := Node.isPure, keeps := fun n => n.title = title, isRoot := fun n => n.kind.isEntry }

/-- A call that runs reads a number through a pure call. Nothing runs the other call and nothing reads
the last number. -/
def attic : ScriptGraph :=
  { name := "attic"
    slots := [some (ScriptNode.entry "open"), some { strike "push" with order := 1 },
      some { scale "twice" with order := 2 },
      some { ScriptNode.literal ⟨.int, .single⟩ "3" with order := 3 },
      some { strike "ring" with order := 4 },
      some { ScriptNode.literal ⟨.int, .single⟩ "4" with order := 5 },
      some { ScriptNode.literal ⟨.int, .single⟩ "5" with order := 6 }]
    links := [⟨3, ⟨5, 0⟩, ⟨4, 2⟩, .data⟩, ⟨2, ⟨3, 0⟩, ⟨2, 0⟩, .data⟩, ⟨1, ⟨2, 1⟩, ⟨1, 2⟩, .data⟩,
      ⟨0, ⟨0, 0⟩, ⟨1, 0⟩, .control⟩]
    linkBound := 4
    nextOrder := 7 }

theorem attic_live :
    attic.Bilateral .control ∧ attic.Bilateral .data ∧ attic.Unhidden (keepTitled "ring") [0] ∧
    (attic.nodeIds.filter fun id => (attic.liveSet (keepTitled "ring") [0]).contains id) =
      [0, 1, 2, 3, 4, 5] ∧
    ∀ id, (attic.liveSet (keepTitled "ring") [0]).contains id = true ↔
      attic.Live (keepTitled "ring") [0] id := by
  have hcontrol : attic.Bilateral .control := bilateral_of_unthreaded rfl .control
  have hdata : attic.Bilateral .data := bilateral_of_unthreaded rfl .data
  have hreached {id : NodeId} (h : attic.Reached [0] id) : id = 0 ∨ id = 1 := by
    induction h with
    | root hr _ => exact Or.inl (List.mem_singleton.mp hr)
    | step _ hl _ _ =>
        obtain ⟨l, hl, hrole, _, rfl⟩ := hl
        simp only [attic, List.mem_cons, List.not_mem_nil, or_false] at hl
        rcases hl with rfl | rfl | rfl | rfl
        iterate 3 cases hrole
        exact Or.inr rfl
  -- No pure node is kept for its own sake.
  have hunhidden : attic.Unhidden (keepTitled "ring") [0] := by
    intro p q hkept hneeded
    have hpure := mem_findNodes.mpr hneeded.1
    have hids : attic.findNodes (keepTitled "ring").isPure = [2, 3, 5, 6] := by cbv
    rw [hids] at hpure
    simp only [List.mem_cons, List.not_mem_nil, or_false] at hpure
    rcases hkept with h | ⟨n, hn, htitle⟩
    · rcases hreached h with rfl | rfl <;> simp at hpure
    · rcases hpure with rfl | rfl | rfl | rfl
      all_goals
        cases hn
        cases htitle
  exact ⟨hcontrol, hdata, hunhidden, by cbv, (liveSet_live_iff hcontrol hdata).2.mpr hunhidden⟩

/-- A call that runs reads a number through a pure node that is kept in any case. -/
def probed : ScriptGraph :=
  { name := "probed"
    slots := [some (ScriptNode.entry "open"), some { strike "push" with order := 1 },
      some { scale "probe" with order := 2 },
      some { ScriptNode.literal ⟨.int, .single⟩ "3" with order := 3 }]
    links := [⟨2, ⟨3, 0⟩, ⟨2, 0⟩, .data⟩, ⟨1, ⟨2, 1⟩, ⟨1, 2⟩, .data⟩, ⟨0, ⟨0, 0⟩, ⟨1, 0⟩, .control⟩]
    linkBound := 3
    nextOrder := 4 }

/-- The number is lost. -/
theorem probed_lost :
    probed.Live (keepTitled "probe") [0] 3 ∧ (probed.liveSet (keepTitled "probe") [0]).contains 3 =
      false := by
  have hreached : probed.Reached [0] 1 :=
    .step (.root List.mem_cons_self rfl) ⟨⟨0, ⟨0, 0⟩, ⟨1, 0⟩, .control⟩, by decide, rfl, rfl, rfl⟩ rfl
  have hread : probed.Leads .data 2 1 := ⟨⟨1, ⟨2, 1⟩, ⟨1, 2⟩, .data⟩, by decide, rfl, rfl, rfl⟩
  have hnumber : probed.Leads .data 3 2 := ⟨⟨2, ⟨3, 0⟩, ⟨2, 0⟩, .data⟩, by decide, rfl, rfl, rfl⟩
  refine ⟨Or.inr ⟨⟨_, rfl, rfl⟩, 1, Or.inl hreached, ⟨_, rfl, rfl⟩,
    .through hnumber ⟨_, rfl, rfl⟩ (.link hread)⟩, ?_⟩
  cbv

end VisualScript.Graph
