import VisualScript.Proofs.Graph.Ports
import VisualScript.Proofs.Working.Registration

namespace VisualScript.Working

variable {w w' : Working}

theorem Frame.hasErrors (h : w.Frame w') (hw : w'.hasErrors = false) : w.hasErrors = false := by
  obtain ⟨later, hl⟩ := h.diagnostics
  rw [Working.hasErrors, ← hl, List.any_append, Bool.or_eq_false_iff] at hw
  exact hw.1

theorem Noted.mem_foldl {α : Type} {f : Working → α → Working}
    (hf : ∀ (w : Working) a, w.Noted (f w a)) {l : List α} {a : α} (ha : a ∈ l) (w : Working) :
    ∃ v, w.Noted v ∧ (f v a).Noted (l.foldl f w) := by
  have hrun (l : List α) (w : Working) : w.Noted (l.foldl f w) :=
    List.foldlRecOn (motive := fun w' => w.Noted w') l f (Std.Refl.refl w) fun v hv a _ =>
      IsTrans.trans _ _ _ hv (hf v a)
  induction l generalizing w with
  | nil => cases ha
  | cons b rest ih =>
      rcases List.mem_cons.mp ha with rfl | ha
      · exact ⟨w, Std.Refl.refl w, hrun rest _⟩
      · obtain ⟨v, hv, hend⟩ := ih ha (f w b)
        exact ⟨v, IsTrans.trans _ _ _ (hf w b) hv, hend⟩

theorem noted_foldl_report {α : Type} (issue : Working → α → Issue) (node : Working → α → Option NodeId)
    (port : Option UInt16) (l : List α) (w : Working) :
    w.Noted (l.foldl (fun w a => w.report (issue w a) (node w a) port) w) :=
  List.foldlRecOn (motive := fun w' => w.Noted w') l _ (Std.Refl.refl w) fun v hv a _ =>
    IsTrans.trans _ _ _ hv (v.noted_report (issue v a) (node v a) port)

theorem noted_warn (w : Working) (report : PruneReport) : w.Noted (w.warn report) :=
  IsTrans.trans _ _ _ (noted_foldl_report _ (fun _ id => some id) none report.inconsistent w)
    (noted_foldl_report _ (fun _ p => some p.2) none report.readAsDefault _)

theorem noted_inspect (w : Working) (p : PortRef) : w.Noted (w.inspect p) := ⟨w.frame_inspect p, rfl⟩

theorem validateEntries_cases (w : Working) :
    ∃ v, w.Noted v ∧ ((w.graph.findNodes fun n => n.kind.entrySpec?.isSome) = [] →
        v = w.report (.missingEntry w.sourceGraph) none) ∧
      (w.validateEntries = v ∧
        (w.role = .eventGraph ∨ (w.graph.findNodes fun n => n.kind.eventSpec?.isSome) = []) ∨
        ∃ count first, w.validateEntries =
          v.report (.multipleEntries v.sourceGraph count) (some first)) := by
  unfold validateEntries
  generalize (w.graph.findNodes fun n => n.kind.entrySpec?.isSome) = entries
  rcases entries with _ | ⟨first, _ | ⟨second, rest⟩⟩
  case' nil => refine ⟨_, w.noted_report _ _ none, fun _ => rfl, ?_⟩
  case' cons.nil => refine ⟨w, Std.Refl.refl w, fun h => absurd h (List.cons_ne_nil _ _), ?_⟩
  case' cons.cons =>
    refine ⟨_, w.noted_report (.multipleEntries w.sourceGraph (rest.length + 2)) (some second) none,
      fun h => absurd h (List.cons_ne_nil _ _), ?_⟩
  -- Whatever came of the first check, the second one is the same.
  all_goals
    dsimp only
    split
    · next hrole => exact .inl ⟨rfl, .inl hrole⟩
    · split
      · next hevents => exact .inl ⟨rfl, .inr hevents⟩
      · exact .inr ⟨_, _, rfl⟩

theorem noted_validateEntries (w : Working) : w.Noted w.validateEntries := by
  obtain ⟨v, hv, _, ⟨he, _⟩ | ⟨_, _, he⟩⟩ := w.validateEntries_cases
  · exact he ▸ hv
  · exact he ▸ IsTrans.trans _ _ _ hv (v.noted_report _ _ none)

theorem noted_validatePort (w : Working) (id : NodeId) (n : ScriptNode) (p : UInt16 × Port) :
    w.Noted ((portIssues w.graph id n p).foldl (fun w issue => w.report issue (some id) (some p.1))
      (w.inspect ⟨id, p.1⟩)) :=
  IsTrans.trans _ _ _ (noted_inspect w _)
    (noted_foldl_report (fun _ issue => issue) (fun _ _ => some id) (some p.1) _ _)

theorem noted_validateNode (r : Registry) (w : Working) (n : NodeId × ScriptNode) :
    w.Noted (validateNode r w n) := by
  have hnode := noted_foldl_report (fun _ issue => issue) (fun _ _ => some n.1) none (nodeIssues r n.2) w
  refine List.foldlRecOn (motive := fun v => w.Noted v) n.2.indexed _ hnode fun v hv p _ => ?_
  exact IsTrans.trans _ _ _ hv (noted_validatePort v n.1 n.2 p)

theorem noted_validateGraph (r : Registry) (w : Working) : w.Noted (w.validateGraph r) :=
  List.foldlRecOn (motive := fun v => w.Noted v) _ _ (Std.Refl.refl w) fun v hv n _ =>
    IsTrans.trans _ _ _ hv (noted_validateNode r v n)

def note (w : Working) (later : List Diagnostic) : Working :=
  { w with diagnostics := w.diagnostics ++ later }

theorem note_nil (w : Working) : w.note [] = w := by rw [note, List.append_nil]

theorem note_note (w : Working) (later more : List Diagnostic) :
    (w.note later).note more = w.note (later ++ more) := by
  rw [note, note, note, List.append_assoc]

theorem foldl_report (node : Option NodeId) (port : Option UInt16) (issues : List Issue) (w : Working) :
    issues.foldl (fun w issue => w.report issue node port) w =
      w.note (issues.map fun issue => ⟨issue, w.locate node port⟩) := by
  induction issues generalizing w with
  | nil => exact w.note_nil.symm
  | cons issue rest ih =>
      rw [List.foldl_cons, ih]
      exact w.note_note [⟨issue, w.locate node port⟩] _

theorem foldl_note {α : Type} {f : Working → α → Working} {found : α → List Diagnostic}
    (hf : ∀ later a, f (w.note later) a = w.note (later ++ found a)) (l : List α)
    (later : List Diagnostic) :
    l.foldl f (w.note later) = w.note (later ++ l.flatMap found) := by
  induction l generalizing later with
  | nil => rw [List.foldl_nil, List.flatMap_nil, List.append_nil]
  | cons a l ih => rw [List.foldl_cons, hf, ih, List.flatMap_cons, List.append_assoc]

def portFindings (w : Working) (n : NodeId × ScriptNode) (p : UInt16 × Port) : List Diagnostic :=
  (portIssues w.graph n.1 n.2 p).map fun issue => ⟨issue, w.locate (some n.1) (some p.1)⟩

def nodeFindings (r : Registry) (w : Working) (n : NodeId × ScriptNode) : List Diagnostic :=
  (nodeIssues r n.2).map (fun issue => ⟨issue, w.locate (some n.1) none⟩) ++
    n.2.indexed.flatMap (w.portFindings n)

theorem validateNode_note (h : ∀ id, w.graph.frayed id = false) (r : Registry)
    (later : List Diagnostic) (n : NodeId × ScriptNode) :
    validateNode r (w.note later) n = w.note (later ++ w.nodeFindings r n) := by
  have hinspect (later : List Diagnostic) (p : PortRef) : (w.note later).inspect p = w.note later := by
    have hfrayed : w.graph.frayedAt p = false := by rw [Graph.frayedAt, h, Bool.false_and]
    change { w.note later with crashed := w.crashed || w.graph.frayedAt p } = w.note later
    rw [hfrayed, Bool.or_false]
    rfl
  rw [validateNode, foldl_report, note_note, nodeFindings, ← List.append_assoc]
  refine foldl_note (fun later p => ?_) _ _
  rw [hinspect, foldl_report, note_note]
  rfl

theorem validateGraph_eq (h : ∀ id, w.graph.frayed id = false) (r : Registry) :
    w.validateGraph r = w.note (w.graph.nodes.flatMap (w.nodeFindings r)) := by
  have hrun := foldl_note (validateNode_note h r) w.graph.nodes []
  rwa [note_nil, List.nil_append] at hrun

theorem validateGraph_of_unlinked {r : Registry} (hlinks : w.graph.links = [])
    (hthreads : w.graph.threads = none)
    (h : ∀ x ∈ w.graph.nodes, nodeIssues r x.2 = [] ∧ ∀ p ∈ x.2.ports, p.is .data .input = false) :
    w.validateGraph r = w := by
  have hfar (p : PortRef) : w.graph.farEnds p = [] := by
    rw [Graph.farEnds, Graph.edges]
    cases w.graph.port? p with
    | none => rfl
    | some port => simp [Graph.linksAt, hthreads, hlinks]
  have hnone : w.graph.nodes.flatMap (w.nodeFindings r) = [] := by
    refine List.flatMap_eq_nil_iff.mpr fun x hx => ?_
    obtain ⟨hnode, hports⟩ := h x hx
    rw [nodeFindings, hnode, List.map_nil, List.nil_append]
    refine List.flatMap_eq_nil_iff.mpr fun p hp => List.map_eq_nil_iff.mpr ?_
    obtain ⟨q, hq, rfl⟩ := List.mem_map.mp hp
    have hport := hports q.1 (List.fst_mem_of_mem_zipIdx hq)
    rw [portIssues, hfar]
    cases hrole : q.1.role <;> cases hdirection : q.1.direction <;> simp_all [Port.is]
  rw [validateGraph_eq fun id => by
    rw [Graph.frayed, hthreads, Option.any_none, Bool.and_false], hnone, note_nil]

theorem registerTerms_frame (env : Env) (early : Bool) (w : Working) :
    w.Frame (registerTerms .standard env early w) := by
  refine List.foldlRecOn (motive := fun v => w.Frame v) _ _ (Std.Refl.refl w) fun v hv n _ => ?_
  split
  · exact IsTrans.trans _ _ _ hv (Registry.standard_registerNode env n.1 v)
  · exact hv

theorem no_error_of_report {issue : Issue} {node : Option NodeId} {port : Option UInt16}
    (h : (w.report issue node port).Noted w') (hw : w'.hasErrors = false) : issue.isError = false := by
  have hr := h.toFrame.hasErrors hw
  rw [hasErrors, report, List.any_append, Bool.or_eq_false_iff] at hr
  simpa [Diagnostic.isError] using hr.2

theorem entries_of_valid (h : w.validateEntries.hasErrors = false) :
    (w.graph.findNodes fun n => n.kind.entrySpec?.isSome) ≠ [] ∧
      (w.role = .eventGraph ∨ (w.graph.findNodes fun n => n.kind.eventSpec?.isSome) = []) := by
  obtain ⟨v, _, hnone, ⟨he, hevents⟩ | ⟨_, _, he⟩⟩ := w.validateEntries_cases
  · refine ⟨fun hempty => ?_, hevents⟩
    rw [he, hnone hempty] at h
    exact absurd (no_error_of_report (Std.Refl.refl _) h) nofun
  · rw [he] at h
    exact absurd (no_error_of_report (Std.Refl.refl _) h) nofun

theorem entry_of_valid (h : w.validateEntries.hasErrors = false) :
    ∃ e, (w.graph.findNodes fun n => n.kind.entrySpec?.isSome) = [e] := by
  cases hentries : w.graph.findNodes fun n => n.kind.entrySpec?.isSome with
  | nil => exact absurd hentries (entries_of_valid h).1
  | cons first rest =>
      cases rest with
      | nil => exact ⟨first, rfl⟩
      | cons second rest =>
          have hnoted : (w.report (.multipleEntries w.sourceGraph (first :: second :: rest).length)
              (some second)).Noted w.validateEntries := by
            simp only [validateEntries, hentries]
            split
            · exact Std.Refl.refl _
            · split
              · exact Std.Refl.refl _
              · exact noted_report _ _ _ none
          exact absurd (no_error_of_report hnoted h) Bool.false_ne_true.symm

theorem portIssues_of_valid {r : Registry} (h : (w.validateGraph r).hasErrors = false) {id : NodeId}
    {n : ScriptNode} (hn : w.graph.node? id = some n) {p : UInt16 × Port} (hp : p ∈ n.indexed)
    {issue : Issue} (hi : issue ∈ portIssues w.graph id n p) : issue.isError = false := by
  obtain ⟨u, hu, hnode⟩ := Noted.mem_foldl (noted_validateNode r) (Graph.mem_nodes.mpr hn) w
  have hlead := noted_foldl_report (fun _ issue => issue) (fun _ _ => some id) none (nodeIssues r n) u
  obtain ⟨v, hv, hport⟩ := Noted.mem_foldl (fun w p => noted_validatePort w id n p) hp
    ((nodeIssues r n).foldl (fun w issue => w.report issue (some id)) u)
  have hgraph : v.graph = w.graph := hv.graph.trans (hlead.graph.trans hu.graph)
  rw [hgraph] at hport
  obtain ⟨t, _, hreport⟩ := Noted.mem_foldl
    (fun w issue => w.noted_report issue (some id) (some p.1)) hi (v.inspect ⟨id, p.1⟩)
  exact no_error_of_report (IsTrans.trans _ _ _ hreport (IsTrans.trans _ _ _ hport hnode)) h

theorem controlOutput_of_valid {r : Registry} (h : (w.validateGraph r).hasErrors = false)
    {id : NodeId} {n : ScriptNode} (hn : w.graph.node? id = some n) {p : UInt16 × Port}
    (hp : p ∈ n.portsWhere .control .output) :
    (w.graph.farEnds ⟨id, p.1⟩).length ≤ 1 := by
  obtain ⟨hmem, his⟩ := List.mem_filter.mp hp
  refine Nat.le_of_not_lt fun hlt => ?_
  have hissue : Issue.controlFanOut n.title p.2.name (w.graph.farEnds ⟨id, p.1⟩).length ∈ portIssues
      w.graph id n p := by
    simp only [Port.is, Bool.and_eq_true, decide_eq_true_eq] at his
    simp [portIssues, his.1, his.2, hlt]
  exact absurd (portIssues_of_valid h hn hmem hissue) nofun

theorem next_of_valid {f : Working → Working} (h : (w.next f).hasErrors = false) :
    w.hasErrors = false ∧ w.next f = f w := by
  unfold next at *
  split at h
  · next hw => rw [hw] at h; cases h
  · next hw => exact ⟨Bool.eq_false_iff.mpr hw, if_neg hw⟩

def pruned (r : Registry) (env : Env) (macros : MacroLibrary) (w : Working) : Working :=
  ((w.expand env macros).work.prune r env ((w.expand env macros).work.roots r env)).2

theorem precompile_of_valid {r : Registry} {env : Env} {macros : MacroLibrary}
    (h : (w.precompile r env macros).hasErrors = false) :
    w.hasErrors = false ∧ ((w.pruned r env macros).validateGraph r).hasErrors = false ∧
      w.precompile r env macros = ((w.pruned r env macros).validateGraph r).registerTerms r env false := by
  rw [precompile] at h ⊢
  obtain ⟨hw, he⟩ := next_of_valid h
  rw [he] at h ⊢
  obtain ⟨_, he⟩ := next_of_valid h
  rw [he] at h ⊢
  obtain ⟨hv, he⟩ := next_of_valid h
  exact ⟨hw, hv, he⟩

end VisualScript.Working
