import VisualScript.Proofs.Event.Forwarding
import VisualScript.Proofs.Event.Origins

namespace VisualScript

namespace Working

/-- The graph stays what it is, all its nodes came from the same place without any call, and all that is
reported points there. -/
structure Pinned (g : ScriptGraph) (s : SourceRef) (w : Working) : Prop where
  graph : w.graph = g
  origins : ∀ {k : NodeId} {n : ScriptNode}, g.node? k = some n →
    ∃ o, w.provenance.get? k = some o ∧ o.source = s ∧ o.callSites = []
  located : ∀ d ∈ w.diagnostics, d.location.source = some s ∧ d.location.callSite = none

namespace Pinned

variable {g : ScriptGraph} {s : SourceRef} {w w' : Working}

theorem congr (h : w.Pinned g s) (hg : w'.graph = w.graph) (hp : w'.provenance = w.provenance)
    (hd : w'.diagnostics = w.diagnostics) : w'.Pinned g s := by
  refine ⟨hg.trans h.graph, ?_, ?_⟩ <;> simp only [hp, hd]
  exacts [h.origins, h.located]

theorem report (h : w.Pinned g s) (issue : Issue) {k : NodeId} {n : ScriptNode}
    (hn : g.node? k = some n) (port : Option UInt16) :
    (w.report issue (some k) port).Pinned g s where
  graph := h.graph
  origins := h.origins
  located d hd := by
    rcases List.mem_append.mp hd with hd | hd
    · exact h.located d hd
    · obtain ⟨o, ho, hs, hsites⟩ := h.origins hn
      rw [List.mem_singleton.mp hd]
      simp [locate, Provenance.outermostCallSite?, ho, hs, Origin.callSite?, hsites]

theorem reports (h : w.Pinned g s) {k : NodeId} {n : ScriptNode} (hn : g.node? k = some n)
    (issues : List Issue) (port : Option UInt16) :
    (issues.foldl (fun w issue => w.report issue (some k) port) w).Pinned g s :=
  List.foldlRecOn (motive := fun v : Working => v.Pinned g s) _ _ h fun _ hv issue _ =>
    hv.report issue hn port

theorem acts {about : NodeId → Prop} (h : w.Pinned g s) (habout : ∀ k, about k → ∃ n, g.node? k = some n)
    (ha : Acts about w w') : w'.Pinned g s := by
  induction ha with
  | refl => exact h
  | tail _ ha ih => cases ha with
    | terms | inspect => exact ih.congr rfl rfl rfl
    | report issue id port hid => exact (habout id hid).elim fun _ hn => ih.report issue hn port

theorem speaks (h : w.Pinned g s) (hs : w.Speaks w') : w'.Pinned g s :=
  h.acts (fun _ hk => hk.imp fun _ hn => h.graph ▸ hn.1) hs

theorem validateGraph (h : w.Pinned g s) : (w.validateGraph .standard).Pinned g s := by
  rw [Working.validateGraph, h.graph]
  refine List.foldlRecOn (motive := fun v : Working => v.Pinned g s) _ _ h fun v hv x hx => ?_
  have hx : g.node? x.1 = some x.2 := Graph.mem_nodes.mp hx
  refine List.foldlRecOn (motive := fun v : Working => v.Pinned g s) _ _ (hv.reports hx _ none)
    fun v hv p _ => ?_
  have hlook : (v.inspect ⟨x.1, p.1⟩).Pinned g s := hv.congr rfl rfl rfl
  exact hlook.reports hx _ _

theorem next {f : Working → Working} (h : w.Pinned g s) (hf : (f w).Pinned g s) :
    (w.next f).Pinned g s := by
  unfold Working.next
  split
  · exact h
  · exact hf

end Pinned

end Working

namespace EventInfo

variable (info : EventInfo) {w : Working} {s : SourceRef} {env : Env}

theorem headed_stub :
    info.stub.graph.Headed := ⟨info.endures_stub.tidy, info.stubEntry, info.node?_stub 0, rfl, rfl⟩

theorem forward_stub (role : Role) (a b : NodeId) (h : b ∈ info.stub.graph.successors a role) : a < b := by
  obtain ⟨-, l, hl, -, rfl, rfl⟩ := info.endures_stub.tidy.mem_successors.mp h
  rw [info.next_of_stubLink (info.mem_stub_links hl).1]
  exact Nat.lt_succ_self _

theorem schedules_stub (hw : w.graph = info.stub.graph) : ∃ s, w.schedule .standard = .ok s := by
  have hsorted (role : Role) (entry : Option NodeId) {ids : List NodeId} (hids : ids.Nodup) :
      ∃ linear, info.stub.graph.sorted entry ids role = .ok linear :=
        Graph.sorted_of_forward (info.forward_stub role) entry hids
  obtain ⟨linear, hlinear⟩ :=
    hsorted .control w.entry (info.stub.graph.nodup_findNodes fun n => !Registry.standard.isPure n)
  obtain ⟨order, horder⟩ := hsorted .data none (info.stub.graph.nodup_findNodes Registry.standard.isPure)
  rw [Working.schedule, hw, Graph.schedule]
  simp only [hlinear, horder]
  exact ⟨_, rfl⟩

theorem validateEntries_stub (hw : w.graph = info.stub.graph) : w.validateEntries = w := by
  have hkind {k : Nat} {n : ScriptNode} (hn : info.stub.graph.node? k = some n) :
      (n.kind.entrySpec?.isSome = true ↔ k = 0) ∧ n.kind.eventSpec?.isSome = false := by
    have hk : k < 4 := info.lt_of_node?_stub hn
    rw [node?_stub] at hn
    obtain rfl | rfl | rfl | rfl : k = 0 ∨ k = 1 ∨ k = 2 ∨ k = 3 := by omega
    all_goals
      cases hn
      refine ⟨?_, rfl⟩
      first | exact iff_of_true rfl rfl | exact iff_of_false Bool.false_ne_true (by decide)
  have hentries : (w.graph.findNodes fun n => n.kind.entrySpec?.isSome) = [0] := by
    rw [hw]
    refine List.perm_singleton.mp ((List.perm_ext_iff_of_nodup (Graph.nodup_findNodes _ _)
      (List.nodup_singleton 0)).mpr fun k => ?_)
    rw [Graph.mem_findNodes, List.mem_singleton]
    constructor
    · rintro ⟨n, hn, hsome⟩
      exact (hkind hn).1.mp hsome
    · rintro rfl
      obtain ⟨n, hn⟩ := info.exists_stubNode (k := 0) (by decide)
      exact ⟨n, hn, (hkind hn).1.mpr rfl⟩
  have hevents : (w.graph.findNodes fun n => n.kind.eventSpec?.isSome) = [] := by
    rw [hw]
    refine List.eq_nil_iff_forall_not_mem.mpr fun k hk => ?_
    obtain ⟨n, hn, hsome⟩ := Graph.mem_findNodes.mp hk
    rw [(hkind hn).2] at hsome
    cases hsome
  simp only [Working.validateEntries, hentries, hevents, ite_self]

theorem precompile_pinned (h : w.Pinned info.stub.graph s) (macros : MacroLibrary) :
    (w.precompile .standard env macros).Pinned info.stub.graph s := by
  have hexpand : (w.expand env macros).work = w := Working.expand_of_plain fun k n hn =>
    (info.stub_plain (h.graph ▸ hn)).imp_right And.left
  have hlive (k : NodeId) (n : ScriptNode) (hn : w.graph.node? k = some n) :
      (w.graph.liveSet (Registry.standard.policy env.options) (w.roots .standard env)).contains k =
        true := by
    rw [Working.roots, h.graph]
    exact info.stub_live env (h.graph ▸ hn)
  have hcrash (crashed : Bool) : Working.Pinned info.stub.graph s { w with crashed } := h.congr rfl rfl rfl
  have hpruned : ((w.prune .standard env (w.roots .standard env)).2.validateGraph .standard).Pinned
      info.stub.graph s := by
    rw [Working.prune_eq_of_live hlive]
    exact (hcrash _).validateGraph
  refine h.next ?_
  rw [hexpand]
  exact h.next (hpruned.next (hpruned.speaks (Working.registerTerms_speaks env _)))

theorem body_pinned (h : w.Pinned info.stub.graph s) :
    (Build.body .standard env w).2.Pinned info.stub.graph s := by
  obtain ⟨schedule, hschedule⟩ := info.schedules_stub h.graph
  rw [Build.body_eq hschedule]
  exact h.speaks (Build.blocks_speaks env schedule w)

end EventInfo

namespace Job

variable {info : EventInfo} {o : Origin} {env : Env} {u : CompilationUnit}

theorem ofEvent_pinned (ho : info.origin = some o) (hsites : o.callSites = []) :
    (ofEvent info).work.Pinned info.stub.graph o.source where
  graph := ofEvent_graph info
  origins {k n} hn := by
    have htraced : (ofEvent info).work.Traced { name := info.spec.name } (· = o.source) 0 fun _ =>
        False := ofEvent_traced ho hsites
    obtain ⟨o', ho'⟩ := htraced.origin (ofEvent_graph info ▸ hn)
    have hrooted := htraced.rooted ho'
    exact ⟨o', ho', hrooted.source id, List.eq_nil_of_length_eq_zero (Nat.le_zero.mp hrooted.shallow)⟩
  located := by
    simp only [ofEvent]
    exact List.forall_mem_nil _

theorem registerSignature_pinned (ho : info.origin = some o) (hsites : o.callSites = []) (env : Env)
    (u : CompilationUnit) :
    ((ofEvent info).registerSignature .standard env u).work.Pinned info.stub.graph o.source := by
  have hentries : (ofEvent info).work.validateEntries = (ofEvent info).work :=
    info.validateEntries_stub (ofEvent_graph info)
  have hslotted : (ofEvent info).work.terms.Slotted := by
    rw [(ofEvent_initial info).terms]
    exact TermTable.slotted_empty
  have hregistered := (ofEvent_pinned ho hsites).acts (fun _ => False.elim)
    (Working.registerTerms_quiets env _ hslotted).1
  have hentry : ((ofEvent info).work.registerTerms .standard env true).entry = some 0 := by
    rw [(Working.registerTerms_frame env true _).entry, (ofEvent_initial info).entry, ofEvent_graph]
    exact info.headed_stub.entries
  obtain ⟨n, hn⟩ := info.exists_stubNode (k := 0) (by decide)
  simp only [registerSignature, hentries]
  refine (List.foldlRecOn (motive := fun w : Working => w.Pinned info.stub.graph o.source ∧
    w.entry = some 0) _ _
    ⟨hregistered, hentry⟩ fun w hw issue _ => ?_).1
  rw [hw.2]
  exact ⟨hw.1.report issue hn none, hw.2⟩

theorem compileBody_pinned {j : Job} {s : SourceRef} (h : j.work.Pinned info.stub.graph s) :
    (j.compileBody .standard env).work.Pinned info.stub.graph s := by
  simp only [compileBody]
  split
  · exact h
  · exact info.body_pinned h

end Job

end VisualScript
