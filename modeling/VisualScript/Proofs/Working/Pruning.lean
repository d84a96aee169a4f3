import VisualScript.Proofs.Graph.Removal
import VisualScript.Proofs.Working.Descent
import VisualScript.Proofs.Working.Typing

namespace VisualScript

theorem flatMap_filter_perm {α β : Type} [DecidableEq β] (key : α → β) {ks : List β} (h : ks.Nodup)
    (l : List α) :
    (ks.flatMap fun k => l.filter fun a => key a = k).Perm (l.filter fun a => key a ∈ ks) := by
  induction ks with
  | nil => simp
  | cons k ks ih =>
      obtain ⟨hk, hks⟩ := List.nodup_cons.mp h
      have hsplit := List.filter_append_perm (fun a => decide (key a = k))
        (l.filter fun a => key a ∈ k :: ks)
      have hhead : (l.filter fun a => key a ∈ k :: ks).filter (fun a => key a = k) =
          l.filter fun a => key a = k := by
        rw [List.filter_filter]
        refine List.filter_congr fun a _ => ?_
        by_cases ha : key a = k <;> simp [ha]
      have htail : (l.filter fun a => key a ∈ k :: ks).filter (fun a => !decide (key a = k)) =
          l.filter fun a => key a ∈ ks := by
        rw [List.filter_filter]
        refine List.filter_congr fun a _ => ?_
        by_cases ha : key a = k
        · simp [ha, hk]
        · simp [ha]
      rw [hhead, htail] at hsplit
      rw [List.flatMap_cons]
      exact ((ih hks).append_left _).trans hsplit

theorem Provenance.get?_foldl_forget (p : Provenance) (ids : List NodeId) (k : NodeId) :
    (ids.foldl forget p).get? k = if k ∈ ids then none else p.get? k := by
  induction ids generalizing p with
  | nil => rfl
  | cons id rest ih =>
      rw [List.foldl_cons, ih, get?_forget]
      by_cases hid : k = id <;> simp [hid]

namespace PruneReport

variable {g : ScriptGraph} {live : LiveSet} {id : NodeId} {n : ScriptNode}

def reads (g : ScriptGraph) (live : LiveSet) : List Link :=
  g.links.filter fun l => l.role = .data && live.contains l.target.node

theorem port?_of_portsWhere (hn : g.node? id = some n) (hfew : n.ports.length ≤ 65536) {role : Role}
    {d : Direction} {p : UInt16 × Port} (hp : p ∈ n.portsWhere role d) :
    g.port? ⟨id, p.1⟩ = some p.2 ∧ p.2.is role d = true := by
  obtain ⟨hp, his⟩ := List.mem_filter.mp hp
  refine ⟨?_, his⟩
  rw [Graph.port?, hn]
  exact (Node.mem_indexed hfew).mp hp

/-- The live readers at a data output are those of the links that start there. -/
theorem readers_at_perm (h : g.Sound) {p : PortRef} {port : Port} (hp : g.port? p = some port)
    (his : port.is .data .output = true) (live : LiveSet) :
    (((g.farEnds p).filter fun far => live.contains far.node).map fun far => (p.node, far.node)).Perm
      (((reads g live).filter fun l => l.source = p).map fun l => (l.source.node, l.target.node)) := by
  obtain ⟨hrole, hdirection⟩ := Port.is_iff.mp his
  have hfar := h.wired.listed hp
  rw [hdirection] at hfar
  have hlive := (hfar.filter fun far => live.contains far.node).map fun far => (p.node, far.node)
  rw [List.filter_map, List.map_map, List.filter_filter] at hlive
  have hsame : (g.links.filter fun l => ((fun far => live.contains far.node) ∘ fun l => l.far .output) l &&
      decide (l.near .output = p)) = (reads g live).filter fun l => l.source = p := by
    rw [reads, List.filter_filter]
    refine List.filter_congr fun l hl => ?_
    by_cases hs : l.source = p
    · obtain ⟨q, hq, hlink⟩ := (h.joins l hl).source
      rw [hs, hp] at hq
      cases hq
      have hdata : l.role = .data := (Port.is_iff.mp hlink).1.symm.trans hrole
      simp [Link.near, Link.far, Direction.opposite, hs, hdata]
    · simp [Link.near, hs]
  rw [hsame] at hlive
  refine hlive.trans (.of_eq (List.map_congr_left fun l hl => ?_))
  have hs : l.source = p := of_decide_eq_true (List.mem_filter.mp hl).2
  rw [← hs]
  rfl

/-- The live readers of a node are those of the data links that start at it. -/
theorem readers_perm (h : g.Sound) (hn : g.node? id = some n) (hfew : n.ports.length ≤ 65536)
    (live : LiveSet) :
    (readers g live id).Perm
      (((reads g live).filter fun l => l.source.node = id).map
        fun l => (l.source.node, l.target.node)) := by
  have hports : (readers g live id).Perm
      (((n.portsWhere .data .output).map fun p => (⟨id, p.1⟩ : PortRef)).flatMap fun p =>
      ((reads g live).filter fun l => l.source = p).map fun l => (l.source.node, l.target.node)) := by
    rw [readers, hn, List.flatMap_map]
    refine List.Perm.flatMap_left _ fun p hp => ?_
    obtain ⟨hport, his⟩ := port?_of_portsWhere hn hfew hp
    exact readers_at_perm h hport his live
  have hnodup : ((n.portsWhere .data .output).map fun p => (⟨id, p.1⟩ : PortRef)).Nodup := by
    have hindices := (Node.nodup_portsWhere hfew .data .output).map
      (f := fun i => (⟨id, i⟩ : PortRef)) fun i j he =>
      congrArg PortRef.index he
    rwa [List.map_map] at hindices
  have hsources := (flatMap_filter_perm Link.source hnodup (reads g live)).map fun l =>
    (l.source.node, l.target.node)
  rw [List.map_flatMap] at hsources
  refine (hports.trans hsources).trans (.of_eq (congrArg _ (List.filter_congr fun l hl => ?_)))
  rw [decide_eq_decide, List.mem_map]
  constructor
  · rintro ⟨p, -, he⟩
    rw [← he]
  · intro hid
    obtain ⟨hl, hreads⟩ := List.mem_filter.mp hl
    rw [Bool.and_eq_true, decide_eq_true_eq] at hreads
    obtain ⟨port, hport, his⟩ := (h.joins l hl).source
    rw [Graph.port?, hid, hn] at hport
    refine ⟨(l.source.index, port), List.mem_filter.mpr ⟨(Node.mem_indexed hfew).mpr hport, ?_⟩, ?_⟩
    · rw [← hreads.1]
      exact his
    · rw [← hid]

variable {policy : PrunePolicy NodeKind}

theorem mem_removed {k : NodeId} :
    k ∈ (ofLive g policy live).removed ↔ g.contains k = true ∧ live.contains k = false := by
  simp only [ofLive, List.mem_map, List.mem_filter, Bool.not_eq_true', Graph.contains_iff]
  constructor
  · rintro ⟨⟨k, n⟩, ⟨hn, hdead⟩, rfl⟩
    exact ⟨⟨n, Graph.mem_nodes.mp hn⟩, hdead⟩
  · rintro ⟨⟨n, hn⟩, hdead⟩
    exact ⟨(k, n), ⟨Graph.mem_nodes.mpr hn, hdead⟩, rfl⟩

theorem ofLive_of_live (h : ∀ k n, g.node? k = some n → live.contains k = true) :
    ofLive g policy live = {} := by
  have hdead : (g.nodes.filter fun n => !live.contains n.1) = [] := by
    refine List.filter_eq_nil_iff.mpr fun x hx => ?_
    rw [h x.1 x.2 (Graph.mem_nodes.mp hx)]
    exact Bool.false_ne_true
  simp only [ofLive, hdead]
  rfl

/-- The data links from removed nodes into live ones are listed once each. -/
theorem readAsDefault_perm (h : g.Sound) (hfew : ∀ k n, g.node? k = some n → n.ports.length ≤ 65536)
    (policy : PrunePolicy NodeKind) (live : LiveSet) :
    (ofLive g policy live).readAsDefault.Perm
      ((g.links.filter fun l => l.role = .data && !live.contains l.source.node &&
        live.contains l.target.node).map
        fun l => (l.source.node, l.target.node)) := by
  have hreaders : (ofLive g policy live).readAsDefault.Perm
      ((ofLive g policy live).removed.flatMap fun k =>
      ((reads g live).filter fun l => l.source.node = k).map fun l => (l.source.node, l.target.node)) := by
    refine List.Perm.flatMap_left _ fun k hk => ?_
    have hk : k ∈ (ofLive g policy live).removed := hk
    obtain ⟨n, hn⟩ := Graph.contains_iff.mp (mem_removed.mp hk).1
    exact readers_perm h hn (hfew k n hn) live
  have hnodup : (ofLive g policy live).removed.Nodup := g.nodup_nodes.sublist (List.filter_sublist.map _)
  have hsources := (flatMap_filter_perm (fun l => l.source.node) hnodup (reads g live)).map fun l =>
    (l.source.node, l.target.node)
  rw [List.map_flatMap] at hsources
  refine (hreaders.trans hsources).trans (.of_eq (congrArg _ ?_))
  rw [reads, List.filter_filter]
  refine List.filter_congr fun l hl => ?_
  obtain ⟨port, hport, -⟩ := (h.joins l hl).source
  have hsource : l.source.node ∈ (ofLive g policy live).removed ↔ live.contains l.source.node = false :=
    mem_removed.trans (and_iff_right (Graph.contains_iff.mpr (Graph.exists_node_of_port? hport)))
  cases hdead : live.contains l.source.node
  · simp [hsource.mpr hdead]
  · have hlive : l.source.node ∉ (ofLive g policy live).removed := fun hc => by
      rw [hsource.mp hc] at hdead
      cases hdead
    simp [hlive]

end PruneReport

namespace Working

variable {w : Working} {r : Registry} {env : Env} {roots : List NodeId}

theorem foldl_removeNode (w : Working) (ids : List NodeId) :
    ids.foldl removeNode w =
      { w with
        graph := ids.foldl Graph.removeNode w.graph
        provenance := ids.foldl Provenance.forget w.provenance } := by
  induction ids generalizing w with
  | nil => rfl
  | cons id rest ih => exact ih (w.removeNode id)

theorem foldl_report_each {α : Type} (w : Working) (issue : Working → α → Issue) (node : α → NodeId)
    (hissue : ∀ later a, issue (w.note later) a = issue w a) (l : List α) (later : List Diagnostic) :
    l.foldl (fun w a => w.report (issue w a) (some (node a))) (w.note later) =
      w.note (later ++ l.map fun a => ⟨issue w a, w.locate (some (node a)) none⟩) := by
  rw [List.map_eq_flatMap]
  refine foldl_note (fun later a => ?_) l later
  rw [hissue]
  exact w.note_note later [⟨issue w a, w.locate (some (node a)) none⟩]

def strayWarning (w : Working) (id : NodeId) : Diagnostic :=
  ⟨.nonPureWithoutControl (w.graph.titleOf id), w.locate (some id) none⟩

def lossWarning (w : Working) (p : NodeId × NodeId) : Diagnostic :=
  ⟨.prunedValueReadAsDefault (w.graph.titleOf p.1) (w.graph.titleOf p.2), w.locate (some p.2) none⟩

theorem warn_eq (w : Working) (report : PruneReport) :
    w.warn report = w.note (report.inconsistent.map w.strayWarning ++
      report.readAsDefault.map w.lossWarning) := by
  have hstray : report.inconsistent.foldl
      (fun w id => w.report (.nonPureWithoutControl (w.graph.titleOf id)) (some id)) w =
      w.note (report.inconsistent.map w.strayWarning) := by
    have hrun := w.foldl_report_each (fun w id => .nonPureWithoutControl (w.graph.titleOf id)) id
      (fun _ _ => rfl)
      report.inconsistent []
    rwa [note_nil] at hrun
  simp only [warn, hstray]
  exact w.foldl_report_each
    (fun w p => .prunedValueReadAsDefault (w.graph.titleOf p.1) (w.graph.titleOf p.2)) Prod.snd
    (fun _ _ => rfl) report.readAsDefault _

/-- A function after all nodes have gone that are not live. -/
structure Cleared (isPure : ScriptNode → Bool) (live : LiveSet) (w w' : Working) : Prop where
  contains : ∀ k, w'.graph.contains k = live.contains k
  leaves : w.graph.Leaves live.contains w'.graph
  origins : ∀ k, w'.provenance.get? k = if w.graph.contains k && !live.contains k then none
    else w.provenance.get? k
  others : w' = { w with graph := w'.graph, provenance := w'.provenance, diagnostics := w'.diagnostics }
  /-- There is a warning for each removed node that is impure and has no control port, and one for each
  data link from a removed node to one that is left. -/
  warnings : ∃ losses,
    w'.diagnostics = w.diagnostics ++ (((w.graph.nodes.filter fun n =>
      !isPure n.2 && !n.2.hasControl && !live.contains n.1).map fun n => w.strayWarning n.1) ++ losses) ∧
    losses.Perm ((w.graph.links.filter fun l =>
      l.role = .data && !live.contains l.source.node && live.contains l.target.node).map fun l =>
        w.lossWarning (l.source.node, l.target.node))

theorem Cleared.errorCount {isPure : ScriptNode → Bool} {live : LiveSet} {w' : Working}
    (h : Cleared isPure live w w') :
    w'.errorCount = w.errorCount := by
  obtain ⟨losses, hlog, hlosses⟩ := h.warnings
  have hnone : losses.countP Diagnostic.isError = 0 := by
    rw [hlosses.countP_eq, List.countP_map]
    exact List.countP_eq_zero.mpr fun l _ => Bool.false_ne_true
  rw [Working.errorCount, hlog, List.countP_append, List.countP_append, hnone, List.countP_map]
  exact congrArg _ (List.countP_eq_zero.mpr fun n _ => Bool.false_ne_true)

theorem prune_eq (h : w.graph.Sound) {report : PruneReport}
    (hreport : PruneReport.ofLive w.graph (r.policy env.options)
      (w.graph.liveSet (r.policy env.options) roots) = report) :
    w.prune r env roots = (report,
      { w with
        graph := report.removed.foldl Graph.removeNode w.graph
        provenance := report.removed.foldl Provenance.forget w.provenance
        diagnostics := w.diagnostics ++ (report.inconsistent.map w.strayWarning ++
          report.readAsDefault.map w.lossWarning) }) := by
  have hcrashed :
      { w with crashed := w.crashed || w.graph.liveStrays (r.policy env.options) roots } = w := by
    rw [Graph.liveStrays_of_unthreaded h.tidy.unthreaded, Bool.or_false]
  simp only [prune, hreport, hcrashed, warn_eq, foldl_removeNode, note]

theorem prune_cleared (h : w.graph.Sound)
    (hfew : ∀ k n, w.graph.node? k = some n → n.ports.length ≤ 65536) :
    w.Cleared r.isPure (w.graph.liveSet (r.policy env.options) roots) (w.prune r env roots).2 := by
  have hlive {k : NodeId} (hk : (w.graph.liveSet (r.policy env.options) roots).contains k = true) :
    w.graph.contains k = true :=
    (h.contains_liveSet.mp hk).contains
  rw [prune_eq h rfl]
  generalize w.graph.liveSet (r.policy env.options) roots = live at hlive
  have hremoved {k : NodeId} : k ∈ (PruneReport.ofLive w.graph (r.policy env.options) live).removed ↔
      (w.graph.contains k && !live.contains k) = true := by
    rw [PruneReport.mem_removed, Bool.and_eq_true, Bool.not_eq_true']
  have hleaves : w.graph.Leaves live.contains _ :=
    (h.foldl_removeNode (PruneReport.ofLive w.graph (r.policy env.options) live).removed).2.congr h
      fun k hk => by
      rw [decide_not, Bool.eq_iff_iff, Bool.not_eq_true', decide_eq_false_iff_not, hremoved, hk]
      simp
  refine ⟨fun k => ?_, hleaves, fun k => ?_, rfl,
    (PruneReport.ofLive w.graph (r.policy env.options) live).readAsDefault.map
    w.lossWarning, ?_, ?_⟩
  · rw [Bool.eq_iff_iff, hleaves.contains, and_iff_left_of_imp hlive]
  · simp only [Provenance.get?_foldl_forget, hremoved]
  · simp only [PruneReport.ofLive, List.filter_filter, List.map_map]
    rfl
  · have hlosses := (PruneReport.readAsDefault_perm h hfew (r.policy env.options) live).map w.lossWarning
    rwa [List.map_map] at hlosses

/-- Pruning is exact, loud and done at once. -/
theorem prune_prune (h : w.graph.Sound) (hfew : ∀ k n, w.graph.node? k = some n → n.ports.length ≤ 65536)
    (r : Registry) (env : Env) (roots : List NodeId) :
    w.Cleared r.isPure (w.graph.liveSet (r.policy env.options) roots) (w.prune r env roots).2 ∧
      (w.prune r env roots).2.errorCount = w.errorCount ∧
      (w.prune r env roots).2.prune r env roots = ({}, (w.prune r env roots).2) := by
  have hcleared : w.Cleared r.isPure (w.graph.liveSet (r.policy env.options) roots)
      (w.prune r env roots).2 := prune_cleared h hfew
  refine ⟨hcleared, hcleared.errorCount, ?_⟩
  have hsound : (w.prune r env roots).2.graph.Sound := by
    rw [prune_eq h rfl]
    exact (h.foldl_removeNode _).1
  generalize (w.prune r env roots).2 = w' at hcleared hsound
  have hlive : ∀ k n, w'.graph.node? k = some n →
      (w'.graph.liveSet (r.policy env.options) roots).contains k = true := by
    intro k n hn
    have hk := hcleared.contains k
    rw [Graph.contains_iff.mpr ⟨n, hn⟩] at hk
    exact hsound.contains_liveSet.mpr
      (hcleared.leaves.found_again h.contains_liveSet.mpr (h.contains_liveSet.mp hk.symm))
  rw [prune_eq hsound (PruneReport.ofLive_of_live hlive)]
  simp

def dice : Working :=
  let roll :=
    { (ScriptNode.pureCall "roll").addPorts [.dataOut "pips" ⟨.int, .single⟩] with isPure := false }
  let g := (((Graph.addNode { name := "dice" } (ScriptNode.entry "dice")).2.addNode
    (Graph.strike "push")).2.addNode roll).2
  .ofGraph "dice" .function ((g.attempt ⟨0, 0⟩ ⟨1, 0⟩).attempt ⟨2, 0⟩ ⟨1, 2⟩) ∅

theorem dice_prune : dice.graph.Sound ∧ (∀ k n, dice.graph.node? k = some n → n.ports.length ≤ 65536) ∧
    (dice.prune .standard {} [0]).1 = ⟨[2], [(2, 1)], [2]⟩ ∧
    dice.Cleared Registry.standard.isPure (dice.graph.liveSet (Registry.standard.policy {}) [0])
      (dice.prune .standard {} [0]).2 ∧
    (dice.prune .standard {} [0]).2.errorCount = 0 ∧
    (dice.prune .standard {} [0]).2.prune .standard {} [0] = ({}, (dice.prune .standard {} [0]).2) := by
  have hsound : dice.graph.Sound :=
    ((((((Graph.Built.empty "dice").addNode _).addNode _).addNode _).connect ⟨0, 0⟩ ⟨1, 0⟩).connect
      ⟨2, 0⟩ ⟨1, 2⟩).sound.1
  have hfew : ∀ k n, dice.graph.node? k = some n → n.ports.length ≤ 65536 :=
    Graph.forall_node_of_slots (by cbv)
  exact ⟨hsound, hfew, by cbv, prune_prune hsound hfew .standard {} [0]⟩

end Working

end VisualScript
