import VisualScript.Proofs.Event.Stub
import VisualScript.Proofs.Expansion.Tracing
import VisualScript.Proofs.Graph.Cycles

namespace VisualScript

namespace Graph

variable {κ : Type} {g : Graph κ}

theorem successor_of_cycle {entry : Option NodeId} {ids nodes : List NodeId} {role : Role}
    (h : g.sorted entry ids role = .error nodes) (hids : ids.Nodup) {k : NodeId} (hk : k ∈ nodes) :
    ∃ y, k ∈ g.successors y role := by
  obtain ⟨y, _, hy⟩ :=
    Relation.TransGen.tail'_iff.mp ((sorted_error strong_strongComponents hids h).mem.mp hk)
  exact ⟨y, hy.2.2⟩

theorem successor_of_schedule {entry : Option NodeId} {isPure : Node κ → Bool} {e : ScheduleError}
    (h : g.schedule entry isPure = .error e) {k : NodeId} (hk : k ∈ e.nodes) :
    ∃ y role, k ∈ g.successors y role := by
  rw [schedule] at h
  split at h
  · next hs =>
    cases h
    exact (successor_of_cycle hs (g.nodup_findNodes _) hk).imp fun _ hy => ⟨_, hy⟩
  · split at h
    · next hs =>
      cases h
      exact (successor_of_cycle hs (g.nodup_findNodes _) hk).imp fun _ hy => ⟨_, hy⟩
    · cases h

end Graph

namespace Working

variable {u : CompilationUnit} {A : SourceRef → Prop} {limit : Nat} {muted : NodeId → Prop}
    {env : Env} {w : Working}

namespace Traced

theorem reports (h : w.Traced u A limit muted) {α : Type} {l : List α} (issue : Working → α → Issue)
    {node : α → NodeId} (hl : ∀ a ∈ l, ¬ muted (node a)) (port : Option UInt16) :
    (l.foldl (fun w a => w.report (issue w a) (some (node a)) port) w).Traced u A limit muted :=
  List.foldlRecOn (motive := fun w : Working => w.Traced u A limit muted) _ _ h fun v hv a ha =>
    hv.reportAt (issue v a) (hl a ha) port

theorem unmute (h : w.Traced u A limit muted) : w.Traced u (fun _ => True) limit fun _ => False where
  toAccounted := h.toAccounted
  rooted ho := ⟨(h.rooted ho).shallow, fun _ _ => trivial, fun _ => trivial⟩
  bodies := h.bodies
  mute := False.elim
  joined hl := ⟨⟨(h.joined hl).1.1, id⟩, (h.joined hl).2.1, id⟩
  located _ _ := ⟨fun _ => trivial, fun _ => trivial⟩

theorem prune (h : w.Traced u A limit muted) (r : Registry) :
    (w.prune r env (w.roots r env)).2.Traced u A limit muted := by
  let live := w.graph.liveSet (r.policy env.options) (w.roots r env)
  let report := PruneReport.ofLive w.graph (r.policy env.options) live
  -- What is muted is an entry, and entries are roots.
  have hdead {x : NodeId × ScriptNode} (hx : x ∈ w.graph.nodes.filter fun n => !live.contains n.1) :
      ¬ muted x.1 := by
    intro hm
    obtain ⟨m, hn, hmute⟩ := h.mute hm
    have hroot : (r.policy env.options).isRoot m = true := by
      simp [Registry.policy, Registry.isRoot, hmute.isEntry]
    have hlive : live.contains x.1 = true := live_of_root env.options.includePotentialRoots hn hroot
    have hdead := (List.mem_filter.mp hx).2
    rw [hlive] at hdead
    cases hdead
  have hlost : ∀ k ∈ report.inconsistent, ¬ muted k := by
    intro k hk
    obtain ⟨x, hx, rfl⟩ := List.mem_map.mp hk
    exact hdead (List.mem_of_mem_filter hx)
  -- Who read from a node that is gone had a link to it.
  have hread : ∀ p ∈ report.readAsDefault, ¬ muted p.2 := by
    intro p hp
    obtain ⟨k, -, hp⟩ := List.mem_flatMap.mp hp
    rw [PruneReport.readers] at hp
    split at hp
    · cases hp
    · obtain ⟨port, -, hp⟩ := List.mem_flatMap.mp hp
      obtain ⟨far, hfar, rfl⟩ := List.mem_map.mp hp
      exact h.not_muted_far (List.mem_of_mem_filter hfar)
  have hremoved : ∀ k ∈ report.removed, ¬ muted k := by
    intro k hk
    obtain ⟨x, hx, rfl⟩ := List.mem_map.mp hk
    exact hdead hx
  have hcrash (crashed : Bool) : Traced u A limit muted { w with crashed } := h.congr rfl rfl rfl
  exact (((hcrash _).reports _ hlost none).reports _ hread none).removeNodes hremoved

theorem nodeIssues_of_muted {n : ScriptNode} (h : n.Mute) : nodeIssues .standard n = [] := by
  have hhandler : (Registry.standard.handler? n).isNone = false := by
    have hk := h.isEntry
    rw [Handler.handler?_standard]
    cases hkind : n.kind <;> first | rfl | rw [hkind] at hk; cases hk
  simp [nodeIssues, hhandler, h.current]

variable (h : w.Traced u A limit muted)
include h

theorem portIssues_of_muted {k : NodeId} (hk : muted k) {n : ScriptNode} (hn : n.Mute)
    {p : UInt16 × Port} (hp : p ∈ n.indexed) : portIssues w.graph k n p = [] := by
  obtain ⟨q, hq, rfl⟩ := List.mem_map.mp hp
  have hout : q.1.direction = .output := hn.outputs q.1 (List.fst_mem_of_mem_zipIdx hq)
  have hfar : w.graph.farEnds ⟨k, UInt16.ofNat q.2⟩ = [] := h.farEnds_of_muted hk
  cases hrole : q.1.role <;> simp [portIssues, hfar, hout, hrole]

theorem validateNode {x : NodeId × ScriptNode} (hx : w.graph.node? x.1 = some x.2) :
    (Working.validateNode .standard w x).Traced u A limit muted := by
  have hmute (hm : muted x.1) : x.2.Mute := by
    obtain ⟨n, hn, hmute⟩ := h.mute hm
    cases hx.symm.trans hn
    exact hmute
  have hnode : ∀ issue ∈ nodeIssues .standard x.2, ¬ muted x.1 := by
    intro issue hissue hm
    rw [nodeIssues_of_muted (hmute hm)] at hissue
    cases hissue
  refine List.foldlRecOn (motive := fun w : Working => w.Traced u A limit muted) _ _
    (h.reports _ hnode none) fun v hv p hp => ?_
  have hport : ∀ issue ∈ portIssues v.graph x.1 x.2 p, ¬ muted x.1 := by
    intro issue hissue hm
    rw [hv.portIssues_of_muted hm (hmute hm) hp] at hissue
    cases hissue
  have hv' : (v.inspect ⟨x.1, p.1⟩).Traced u A limit muted := hv.congr rfl rfl rfl
  exact hv'.reports _ hport _

theorem validateGraph : (w.validateGraph .standard).Traced u A limit muted := by
  have hrun := List.foldlRecOn (motive := fun v : Working => v.Traced u A limit muted ∧
    v.graph = w.graph) w.graph.nodes
    (Working.validateNode .standard) ⟨h, rfl⟩ fun v hv x hx =>
      ⟨hv.1.validateNode (by rw [hv.2]; exact Graph.mem_nodes.mp hx),
        (noted_validateNode .standard v x).graph.trans hv.2⟩
  exact hrun.1

theorem next {f : Working → Working}
    (hf : w.Traced u A limit muted → (f w).Traced u A limit muted) :
    (w.next f).Traced u A limit muted := by
  unfold Working.next
  split
  · exact h
  · exact hf h

theorem precompile_of_expand {macros : MacroLibrary}
    (hexpand : (w.expand env macros).work.Traced u A limit muted) :
    (w.precompile .standard env macros).Traced u A limit muted := by
  refine h.next fun _ => hexpand.next fun h => ?_
  exact (h.prune .standard).validateGraph.next fun h => h.speaks (registerTerms_speaks env _)

theorem body : (Build.body .standard env w).2.Traced u A limit muted := by
  cases hs : w.schedule .standard with
  | ok s =>
      rw [Build.body_eq hs]
      exact h.speaks (Build.blocks_speaks env s w)
  | error e =>
      have hbody : (Build.body .standard env w).2 =
          w.report (.scheduleCycle (e.nodes.filterMap fun id => (w.graph.node? id).map
            fun n => n.title)) e.nodes.head? := by
        simp only [Build.body, Build.bind_apply, Build.get_apply, hs]
        rfl
      rw [hbody]
      refine h.report _ (fun k hk => ?_) none
      obtain ⟨y, role, hy⟩ := Graph.successor_of_schedule hs (List.mem_of_head? hk)
      obtain ⟨-, l, hl, -, -, rfl⟩ := h.tidy.mem_successors.mp hy
      exact (h.joined ⟨l, hl, rfl, rfl⟩).2.2

theorem validateEntries
    (hentries : ∀ first rest, (w.graph.findNodes fun n => n.kind.entrySpec?.isSome) =
      first :: rest → ∀ k ∈ rest, ¬ muted k)
    (hevents : w.role = .eventGraph ∨ ∀ k, ¬ muted k) :
    w.validateEntries.Traced u A limit muted := by
  unfold Working.validateEntries
  generalize (w.graph.findNodes fun n => n.kind.entrySpec?.isSome) = entries at hentries ⊢
  rcases entries with _ | ⟨first, _ | ⟨second, rest⟩⟩
  case' nil =>
    have hv := h.report (.missingEntry w.sourceGraph)
      (fun k hk => absurd hk.symm (Option.some_ne_none k)) none
  case' cons.nil => have hv := h
  case' cons.cons =>
    have hv := h.reportAt (.multipleEntries w.sourceGraph (rest.length + 2))
      (hentries first (second :: rest) rfl second List.mem_cons_self) none
  -- Whatever came of the first check, the second one is the same.
  all_goals
    dsimp only
    split
    · exact hv
    · next hrole =>
      split
      · exact hv
      · exact hv.reportAt _ (hevents.resolve_left hrole _) none

end Traced

end Working

namespace Job

open Working

variable {u : CompilationUnit} {A : SourceRef → Prop} {limit : Nat} {muted : NodeId → Prop}
    {env : Env} {j : Job}

/-- What is muted is in the event graph, which overrides nothing, and is not the second entry. -/
structure Careful (j : Job) (muted : NodeId → Prop) : Prop where
  entries : ∀ first rest, (j.work.graph.findNodes fun n => n.kind.entrySpec?.isSome) =
    first :: rest → ∀ k ∈ rest, ¬ muted k
  role : j.work.role = .eventGraph ∧ j.mustOverride = false ∨ ∀ k, ¬ muted k

theorem careful_of_none (j : Job) : j.Careful fun _ => False := ⟨fun _ _ _ _ _ => id, Or.inr fun _ => id⟩

theorem registerSignature_traced (h : j.work.Traced u A limit muted) (hterms : j.work.terms = {})
    (hcareful : j.Careful muted) :
    (j.registerSignature .standard env u).work.Traced u A limit muted := by
  have hentries := h.validateEntries hcareful.entries (hcareful.role.imp_left And.left)
  have hslotted : j.work.validateEntries.terms.Slotted := by
    rw [(noted_validateEntries j.work).terms, hterms]
    exact TermTable.slotted_empty
  have hregistered := hentries.acts (fun _ => False.elim) (registerTerms_quiets env _ hslotted).1
  have hrole : (j.work.validateEntries.registerTerms .standard env true).role = j.work.role :=
    (registerTerms_frame env true _).role.trans (noted_validateEntries j.work).role
  rw [registerSignature]
  refine List.foldlRecOn (motive := fun w : Working => w.Traced u A limit muted) _ _ hregistered
    fun v hv issue hissue => ?_
  rcases hcareful.role with ⟨hgraph, hover⟩ | hnone
  · rw [hrole, hgraph, if_pos rfl, hover] at hissue
    cases hissue
  · exact hv.report issue (fun k _ => hnone k) none

theorem precompile_traced (h : j.work.Traced u A env.options.maxExpansionDepth muted)
    (hA : ∀ s, u.Authored s → A s) :
    (j.precompile .standard env u.macros).work.Traced u A env.options.maxExpansionDepth muted :=
  h.precompile_of_expand (Expansion.expand_traced h hA)

theorem compileBody_traced (h : j.work.Traced u A limit muted) :
    (j.compileBody .standard env).work.Traced u A limit muted := by
  simp only [compileBody]
  split
  · exact h
  · exact h.body

end Job

end VisualScript
