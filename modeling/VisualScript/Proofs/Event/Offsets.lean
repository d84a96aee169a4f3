import VisualScript.Proofs.Event.Forwarding

namespace VisualScript

namespace Graph

variable {g : ScriptGraph} {e : NodeId}

theorem predecessors_of_shut (htidy : g.Tidy) (h : ∀ l ∈ g.links, l.target.node ≠ e) (role : Role) :
    g.predecessors e role = [] := by
  have hlinks : g.linksAt .input e = [] := by
    rw [linksAt, htidy.unthreaded]
    refine List.filter_eq_nil_iff.mpr fun l hl he => ?_
    exact h l hl (of_decide_eq_true he)
  have hnone : g.neighbours e role .input = [] := by
    rw [neighbours, hlinks]
    split <;> rfl
  simp [predecessors, hnone, distinct]

theorem prelude_of_shut (htidy : g.Tidy) (h : ∀ l ∈ g.links, l.target.node ≠ e)
    {entry : Option NodeId} {isPure : ScriptNode → Bool} {s : Schedule}
    (hs : g.schedule entry isPure = .ok s) : s.prelude e = [] := by
  obtain ⟨order, _, hprelude⟩ := schedule_prelude hs
  rcases hprelude e with he | he
  · exact he
  · rw [he, preludeOf, predecessors_of_shut htidy h, closure]
    exact List.filter_eq_nil_iff.mpr fun p _ hp => List.not_mem_nil (of_decide_eq_true hp)

theorem Descends.self {g₀ : ScriptGraph} (h : g₀.Descends e g) : g.Descends e g := by
  obtain ⟨n₀, hn₀, hk, hports⟩ := h.head
  obtain ⟨n, hn, hout⟩ := h.kept hn₀ hk
  refine .refl h.tidy (Nat.lt_of_lt_of_le h.started h.order)
    ⟨n, hn, Node.kind_eq_of_outline hout ▸ hk, ?_⟩ h.shut
  intro p hp
  have hmem : (⟨p.name, p.direction, p.role, .wildcard, none⟩ : Port) ∈ n₀.outline.ports :=
    hout ▸ List.mem_map.mpr ⟨p, hp, rfl⟩
  obtain ⟨p₀, hp₀, he⟩ := List.mem_map.mp hmem
  exact (congrArg Port.direction he).symm.trans (hports p₀ hp₀)

theorem events_split {before after : List (NodeId × ScriptNode)} {n : ScriptNode}
    (h : g.nodes = before ++ (e, n) :: after) {spec : EventSpec}
    (hspec : n.kind.eventSpec? = some spec) :
    ∃ earlier later, g.events = earlier ++ (e, spec) :: later ∧
      ∀ x ∈ earlier, ∃ m, (x.1, m) ∈ before ∧ m.kind.eventSpec? = some x.2 := by
  rw [events, h, List.filterMap_append, List.filterMap_cons, hspec]
  refine ⟨_, _, rfl, fun x hx => ?_⟩
  obtain ⟨⟨k, m⟩, hm, hx⟩ := List.mem_filterMap.mp hx
  obtain ⟨spec', hkind, rfl⟩ := Option.map_eq_some_iff.mp hx
  exact ⟨m, hm, hkind⟩

end Graph

theorem Working.isError_of_report {issues : List (Issue × NodeId)} {w : Working}
    (h : (issues.foldl (fun w i => w.report i.1 (some i.2)) w).hasErrors = false)
    {i : Issue × NodeId} (hi : i ∈ issues) :
    i.1.isError = false := by
  induction issues generalizing w with
  | nil => cases hi
  | cons x rest ih =>
      rcases List.mem_cons.mp hi with rfl | hi
      · have hnoted := noted_foldl_report (fun _ (i : Issue × NodeId) => i.1) (fun _ i => some i.2)
          none rest (w.report i.1 (some i.2))
        have hreported := hnoted.toFrame.hasErrors h
        by_contra herror
        rw [hasErrors_report i.1 (Bool.not_eq_false _ ▸ herror)] at hreported
        cases hreported
      · exact ih h hi

namespace EventGraph

theorem ofUnit_issues (u : CompilationUnit) (schema : Schema) :
    ∀ i ∈ (ofUnit u schema).2, i.1.isError = true := by
  refine List.foldlRecOn (motive := fun found : EventGraph × List (Issue × NodeId) => ∀ i ∈ found.2,
    i.1.isError = true) _ _
    (List.forall_mem_nil _) fun found h x _ => ?_
  rcases addEvent_cases found.1 found.2 x with ⟨_, he⟩ | ⟨name, he⟩ | ⟨_, _, _, he⟩ <;> rw [he]
  · exact h
  · exact List.forall_mem_append.mpr ⟨h, List.forall_mem_singleton.mpr rfl⟩
  · exact h

variable {function : String} {n : ScriptNode}

theorem node?_start (function : String) : (start function).graph.node? 0 = some (entryNode function) := rfl

theorem entry_outline (h : n.outline = (entryNode function).outline) :
    (∃ p, n.portsWhere .data .output = [(1, p)] ∧ p.name = entryPointParam) ∧ n.ports.length = 2 := by
  have hports : n.ports.map (fun p => (⟨p.name, p.direction, p.role, .wildcard, none⟩ : Port)) =
      [⟨"then", .output, .control, .wildcard, none⟩, ⟨entryPointParam, .output, .data, .wildcard, none⟩] :=
    congrArg Node.ports h
  obtain ⟨a, rest, hn, ha, hrest⟩ := List.map_eq_cons_iff.mp hports
  obtain ⟨b, rest, rfl, hb, hrest⟩ := List.map_eq_cons_iff.mp hrest
  obtain rfl := List.map_eq_nil_iff.mp hrest
  obtain ⟨_, had, har, _⟩ := Port.mk.inj ha
  obtain ⟨hname, hbd, hbr, _⟩ := Port.mk.inj hb
  refine ⟨⟨b, ?_, hname⟩, hn ▸ rfl⟩
  rw [Node.portsWhere, Node.indexed, hn]
  simp [Port.is, har, hbd, hbr]

theorem emit_entry {w : Working} (hn : w.graph.node? 0 = some n)
    (hout : n.outline = (entryNode function).outline) {index : TermId}
    (hnet : w.terms.net? ⟨0, 1⟩ = some index) (env : Env) :
    Registry.standard.emitNode env 0 w = ([.computedGoto index], w) := by
  have hkind : n.kind = (entryNode function).kind := Node.kind_eq_of_outline hout
  have hh : Registry.standard.handler? n = some Handler.functionEntry := by
    rw [Handler.handler?_standard, hkind]; rfl
  obtain ⟨⟨p, hports, _⟩, _⟩ := entry_outline hout
  have houtputs : w.dataOutputs 0 = [index] := by
    simp only [Working.dataOutputs, hn, hports]
    exact List.filterMap_cons_some hnet
  rw [Registry.emitNode_eq hn hh, Handler.functionEntry]
  simp only [hkind, entryNode, Build.bind_apply, Build.get_apply, List.mapM_nil, Build.pure_apply,
    houtputs, List.head?_cons]
  rfl

/-- The first event of a name is the one that is listed, whatever was added to the graph later. -/
theorem lookup_event {e : EventGraph} (hready : e.graph.Ready) (hknown : e.Known)
    (hcomplete : e.Complete) {g : ScriptGraph} (hg : e.graph.Descends 0 g) {info : EventInfo}
    (hinfo : e.events.get? info.spec.name = some info) {start : NodeId → Option Nat} {o : Nat}
    (ho : start info.node = some o) :
    (g.events.filterMap fun x => (start x.1).map fun o => (x.2.name, o)).lookup info.spec.name =
      some o := by
  obtain ⟨_, n₀, hn₀, hk, _⟩ := hknown _ info hinfo
  obtain ⟨n, hn, hout⟩ := hg.kept hn₀ (hk ▸ rfl)
  obtain ⟨before, after, hnodes⟩ := List.append_of_mem (Graph.mem_nodes.mpr hn)
  have hsorted : g.nodes.Pairwise fun a b => Graph.authored a b = true :=
    List.pairwise_mergeSort Graph.authored_trans Graph.authored_total _
  have hnodup := g.nodup_nodes
  rw [hnodes] at hsorted hnodup
  have hspec : n.kind.eventSpec? = some info.spec := by
    rw [Node.kind_eq_of_outline hout, hk]
    rfl
  obtain ⟨earlier, later, hevents, hearlier⟩ := Graph.events_split hnodes hspec
  rw [hevents, List.filterMap_append, List.filterMap_cons, ho]
  refine List.lookup_eq_some_iff.mpr ⟨_, _, rfl, fun x hx => ?_⟩
  obtain ⟨⟨k, spec⟩, hmem, hx⟩ := List.mem_filterMap.mp hx
  obtain ⟨o', _, rfl⟩ := Option.map_eq_some_iff.mp hx
  obtain ⟨m, hm, hkind⟩ := hearlier _ hmem
  refine bne_iff_ne.mpr fun (hname : info.spec.name = spec.name) => ?_
  -- Nothing stands before the event that was not there from the beginning.
  have hmg : g.node? k = some m := Graph.mem_nodes.mp (hnodes ▸ List.mem_append_left _ hm)
  have hle := (Graph.authored_iff _ _ _ _).mp
    ((List.pairwise_append.mp hsorted).2.2 _ hm _ List.mem_cons_self)
  have hlt : m.order < e.graph.nextOrder := by
    have hn₀lt := hready.order_lt hn₀
    rw [← Node.order_eq_of_outline hout] at hn₀lt
    omega
  obtain ⟨m₀, hm₀, hout'⟩ := hg.older hmg hlt
  obtain ⟨info', hinfo', hnode⟩ :=
    hcomplete k m₀ spec hm₀ (Node.kind_eq_of_outline hout' ▸ eventSpec?_eq_some.mp hkind)
  rw [← hname, hinfo] at hinfo'
  cases hinfo'
  rw [List.map_append, List.map_cons] at hnodup
  exact (List.nodup_append.mp hnodup).2.2 k (List.mem_map.mpr ⟨_, hm, rfl⟩) k
    (hnode ▸ List.mem_cons_self) rfl

end EventGraph

namespace Job

variable (u : CompilationUnit) (schema : Schema)

variable {u schema} {env : Env}

theorem eventGraphOf_graph : ((eventGraphOf u schema).registerSignature .standard env u).work.graph =
    (EventGraph.ofUnit u schema).1.graph :=
  (registerSignature_frame env u _).graph.trans
    ((Working.noted_validateEntries _).graph.trans (eventGraphOf_noted u schema).graph)

theorem eventGraphOf_orderly : (eventGraphOf u schema).work.terms.Orderly :=
  (eventGraphOf_noted u schema).terms ▸ TermTable.orderly_empty

variable (u schema env) in
theorem pruned_eventGraph :
    (EventGraph.ofUnit u schema).1.graph.Descends 0 ((eventGraphOf u schema).pruned env u) ∧
    (EventGraph.start schema.eventGraphFunction).graph.Descends 0
      ((eventGraphOf u schema).pruned env u) := by
  obtain ⟨hgrown, _, _⟩ := EventGraph.ofUnit_consolidated u schema
  refine ⟨Working.pruned_descends ?_, Working.pruned_descends ?_⟩ <;> rw [eventGraphOf_graph]
  · exact hgrown.descends.self
  · exact hgrown.descends

variable (u schema env) in
theorem entry_pruned : ∃ n, ((eventGraphOf u schema).pruned env u).node? 0 = some n ∧
    n.outline = (EventGraph.entryNode schema.eventGraphFunction).outline :=
  (pruned_eventGraph u schema env).2.kept (EventGraph.node?_start _) rfl

section Clean

variable (hv : ((eventGraphOf u schema).prepared env u).work.hasErrors = false)

include hv

theorem complete_of_clean : (EventGraph.ofUnit u schema).1.Complete := by
  obtain ⟨_, _, hcomplete⟩ := EventGraph.ofUnit_consolidated u schema
  have hregistered := (Working.precompile_of_valid hv).1
  have hstart := (Working.noted_validateEntries _).toFrame.hasErrors
    ((registerSignature_frame env u (eventGraphOf u schema)).hasErrors hregistered)
  refine hcomplete (List.eq_nil_iff_forall_not_mem.mpr fun i hi => ?_)
  have herror := EventGraph.ofUnit_issues u schema i hi
  rw [Working.isError_of_report hstart hi] at herror
  cases herror

theorem graph_eventGraph :
    ((eventGraphOf u schema).prepared env u).work.graph = (eventGraphOf u schema).pruned env u :=
  (precompile_registers hv eventGraphOf_orderly).2.2.1

theorem entry_eventGraph : ((eventGraphOf u schema).prepared env u).work.entry = some 0 := by
  obtain ⟨_, _, he⟩ := Working.precompile_of_valid hv
  have hlate := Working.registerTerms_frame env false
    (((eventGraphOf u schema).registerSignature .standard env u).work.pruned .standard env u.macros
      |>.validateGraph .standard)
  have hwork : ((eventGraphOf u schema).prepared env u).work = _ := he
  rw [hwork, hlate.entry, (Working.noted_validateGraph _ _).entry, (Working.pruned_kept _ env u.macros).2,
    (registerSignature_frame env u _).entry, (Working.noted_validateEntries _).entry,
    (eventGraphOf_noted u schema).entry]
  exact (EventGraph.ofUnit_headed u schema).entries

theorem binds_entry : ((eventGraphOf u schema).prepared env u).work.terms.Binds ⟨0, 1⟩ fun a =>
    a.kind = .parameter ∧ a.declared = entryPointParam := by
  have hgraph : (eventGraphOf u schema).work.validateEntries.graph =
    (EventGraph.ofUnit u schema).1.graph :=
    (Working.noted_validateEntries _).graph.trans (eventGraphOf_noted u schema).graph
  obtain ⟨n, hn, hout⟩ := (EventGraph.ofUnit_consolidated u schema).1.descends.kept
    (EventGraph.node?_start _) rfl
  obtain ⟨⟨p, hports, hname⟩, hlength⟩ := EventGraph.entry_outline hout
  have hbound := Working.registerTerms_entry
    ((Working.noted_validateEntries (eventGraphOf u schema).work).terms ▸ eventGraphOf_orderly)
    (precompile_registers hv eventGraphOf_orderly).1 (hgraph ▸ hn) (Node.kind_eq_of_outline hout)
      (by omega) (hports ▸ List.mem_singleton_self _)
  obtain ⟨m, hm, hout'⟩ := entry_pruned u schema env
  refine binds_prepared hv eventGraphOf_orderly (q := ⟨0, 1⟩) hm ?_ ?_ ?_
  · rw [Registry.isEarly, Handler.handler?_standard, Node.kind_eq_of_outline hout']
    rfl
  · exact fun a b hab ha => ⟨hab.kind.trans ha.1, hab.declared.trans ha.2⟩
  · obtain ⟨i, a, hnet, ha, hkind, hdeclared, _⟩ := hbound
    exact ⟨i, a, hnet, ha, hkind, hdeclared.trans hname⟩

theorem binds_event {k : NodeId} {n : ScriptNode} {spec : EventSpec}
    (hn : (EventGraph.ofUnit u schema).1.graph.node? k = some n) (hk : n.kind = .event spec)
    (hnodup : ((n.portsWhere .data .output).map Prod.fst).Nodup) {p : UInt16 × Port}
    (hp : p ∈ n.portsWhere .data .output) :
    ((eventGraphOf u schema).prepared env u).work.terms.Binds ⟨k, p.1⟩ fun a =>
      a.kind = .persistentFrame ∧ a.name = slotName spec.name p.2.name := by
  have hgraph : (eventGraphOf u schema).work.validateEntries.graph =
    (EventGraph.ofUnit u schema).1.graph :=
    (Working.noted_validateEntries _).graph.trans (eventGraphOf_noted u schema).graph
  have hbound := (Working.registerTerms_event
    ((Working.noted_validateEntries (eventGraphOf u schema).work).terms ▸ eventGraphOf_orderly)
    (precompile_registers hv eventGraphOf_orderly).1 (hgraph ▸ hn) hk hp).2 hnodup
  obtain ⟨m, hm, hout⟩ := (pruned_eventGraph u schema env).1.kept hn (hk ▸ rfl)
  refine binds_prepared hv eventGraphOf_orderly hm ?_ ?_ hbound
  · rw [Registry.isEarly, Handler.handler?_standard, Node.kind_eq_of_outline hout, hk]
    rfl
  · exact fun a b hab ha => ⟨hab.kind.trans ha.1, (hab.name (ha.1 ▸ rfl)).trans ha.2⟩

section Body

variable {s : Schedule} (hs : ((eventGraphOf u schema).prepared env u).work.schedule .standard = .ok s)

include hs

theorem linear_eventGraph : s.linear.head? = some 0 ∧ s.prelude 0 = [] := by
  rw [Working.schedule, entry_eventGraph hv, graph_eventGraph hv] at hs
  obtain ⟨_, hdescends⟩ := pruned_eventGraph u schema env
  obtain ⟨n, hn, hout⟩ := entry_pruned u schema env
  have himpure : Registry.standard.isPure n = false := by
    rw [Registry.isPure, Handler.handler?_standard, Node.kind_eq_of_outline hout]
    exact Node.isPure_eq_of_outline hout
  refine ⟨Graph.head_linear hs ⟨n, hn, himpure⟩ fun k _ hk => ?_,
    Graph.prelude_of_shut hdescends.tidy hdescends.shut hs⟩
  obtain ⟨_, l, hl, _, _, htarget⟩ := hdescends.tidy.mem_successors.mp hk
  exact hdescends.shut l hl htarget

theorem blocks_eventGraph (hdebug : env.options.debugInstrumentation = false)
    (hcomments : env.options.emitNodeComments = false) :
    ∃ index, (Build.blocks .standard env s ((eventGraphOf u schema).prepared env u).work).1[0]? =
        some ⟨0, [(0, .computedGoto index)]⟩ ∧
      ∃ a, ((eventGraphOf u schema).prepared env u).work.terms.get? index = some a ∧
        a.kind = .parameter ∧ a.declared = entryPointParam := by
  obtain ⟨hhead, hprelude⟩ := linear_eventGraph hv hs
  obtain ⟨rest, hlinear⟩ := List.head?_eq_some_iff.mp hhead
  obtain ⟨index, a, hnet, ha, hentry⟩ := binds_entry hv
  obtain ⟨n, hn, hout⟩ := entry_pruned u schema env
  have hemit := EventGraph.emit_entry (graph_eventGraph hv ▸ hn) hout hnet env
  have hblock : Build.block .standard env s 0 ((eventGraphOf u schema).prepared env u).work =
      (⟨0, [(0, .computedGoto index)]⟩, ((eventGraphOf u schema).prepared env u).work) := by
    rw [Build.block_eq, hprelude, List.mapM_nil, Build.pure_apply,
      Build.emit_plain hdebug hcomments, hemit]
    rfl
  refine ⟨index, ?_, a, ha, hentry⟩
  rw [Build.blocks, hlinear, Build.mapM_cons, hblock]
  rfl

/-- Each event has a place behind the jump. -/
theorem start_of_event {index : TermId}
    (hfirst : (Build.blocks .standard env s ((eventGraphOf u schema).prepared env u).work).1[0]? =
      some ⟨0, [(0, .computedGoto index)]⟩)
    (originOf : NodeId → Option Origin) {k : NodeId} {n : ScriptNode} {spec : EventSpec}
    (hn : (EventGraph.ofUnit u schema).1.graph.node? k = some n) (hk : n.kind = .event spec)
    (hpure : n.isPure = false) :
    ∃ o, (Body.link (Build.blocks .standard env s ((eventGraphOf u schema).prepared env u).work).1
      originOf).blockStart? k = some o ∧
      1 ≤ o := by
  have hnodes := Build.map_node_blocks .standard env s ((eventGraphOf u schema).prepared env u).work
  generalize (Build.blocks .standard env s ((eventGraphOf u schema).prepared env u).work).1 =
    blocks at hfirst hnodes
  obtain ⟨m, hm, hout⟩ := (pruned_eventGraph u schema env).1.kept hn (hk ▸ rfl)
  have hlinear : k ∈ s.linear := by
    refine (Graph.mem_linear hs).mpr ⟨m, graph_eventGraph hv ▸ hm, ?_⟩
    rw [Registry.isPure, Handler.handler?_standard, Node.kind_eq_of_outline hout, hk]
    exact (Node.isPure_eq_of_outline hout).trans hpure
  obtain ⟨b, hb, rfl⟩ := List.mem_map.mp (hnodes ▸ hlinear)
  obtain ⟨i, hi⟩ := List.mem_iff_getElem?.mp hb
  refine ⟨_, Block.blockStart_of_nodup (hnodes ▸ Graph.schedule_nodup hs) originOf hi, ?_⟩
  refine Block.offset_pos hfirst ?_ (Nat.pos_of_ne_zero ?_)
  · rcases Block.trim_cases ⟨0, [(0, .computedGoto index)]⟩ blocks[1]? with he | ⟨front, b', _, he, _⟩
    · rw [he]
      exact List.cons_ne_nil _ _
    · have hlast := congrArg List.getLast? he
      rw [List.getLast?_append] at hlast
      cases hlast
  · rintro rfl
    cases hfirst.symm.trans hi
    obtain ⟨n₀, hn₀, hout₀⟩ := entry_pruned u schema env
    cases hm.symm.trans hn₀
    have hkind := (Node.kind_eq_of_outline hout).symm.trans (Node.kind_eq_of_outline hout₀)
    rw [hk] at hkind
    cases hkind

end Body

end Clean

end Job

end VisualScript
