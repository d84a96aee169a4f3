import VisualScript.Proofs.Compile.Returns
import VisualScript.Proofs.Working.Variables

namespace VisualScript

namespace Job

variable {env : Env} {u : CompilationUnit} {j : Job} (hj : j.Initial)
    (hv : (j.prepared env u).work.hasErrors = false)

include hj hv

theorem net?_checked (x : NodeId × ScriptNode) (hx : x ∈ (j.checked env u).graph.nodes)
    (hlate : Registry.standard.isEarly x.2 = false) (index : UInt16) :
    (j.checked env u).terms.net? ⟨x.1, index⟩ = none := by
  rw [checked_terms]
  refine net?_opened hj hv (checked_graph hv ▸ Graph.mem_nodes.mp hx) (fun n₀ _ hearly hkind => ?_) index
  rw [Working.isEarly_eq, hkind, ← Working.isEarly_eq, hlate] at hearly
  cases hearly

theorem locals_opened :
    (j.opened env).terms.declares .local = (j.prepared env u).work.locals.map fun l =>
      (l.name, l.type) := by
  obtain ⟨e, n₀, n, spec, hk, hout, hentry, hn, _, hlocals⟩ := entry_prepared hj hv
  rw [hlocals, Working.locals, hentry, Option.bind_some, hn, Option.bind_some,
    Node.kind_eq_of_outline hout]
  simp [ScriptNode.brings, hk, NodeKind.entrySpec?]

theorem orderly_checked : (j.checked env u).terms.Orderly := by
  rw [checked_terms]
  exact (precompile_registers hv (orderly_initial hj)).2.1

theorem locals_prepared : (j.prepared env u).work.terms.declares .local =
    ((j.prepared env u).work.locals.map fun l => (l.name, l.type)) ++
      (j.prepared env u).work.graph.nodes.flatMap fun x => x.2.temporaries := by
  have hlocals := Working.registerTerms_temporaries (orderly_checked hj hv) (net?_checked hj hv)
    (prepared_work hv ▸ hv)
  rw [← prepared_work hv, checked_graph hv, checked_terms, locals_opened hj hv] at hlocals
  exact hlocals

theorem denoted_prepared {name : String} {nodes : List (NodeId × ScriptNode)} {t : TermId}
    (h : if name ∈ (((j.prepared env u).work.locals.map fun l => (l.name, l.type)) ++
      nodes.flatMap fun x => x.2.temporaries).map Prod.fst then (j.prepared env u).work.terms.find?
        .local name = some t else (j.prepared env u).work.terms.member? env.schema name = some t) :
    (j.prepared env u).work.denoted? env name = some t ↔
      (j.prepared env u).work.isClear nodes name = true := by
  have horderly := orderly_prepared hv (orderly_initial hj)
  rw [Working.isClear_iff, ← TermTable.denoted?_eq_iff (indexed_prepared hj hv) horderly
    (locals_prepared hj hv) h, List.length_map]
  rfl

variable {id : NodeId} {n : ScriptNode} {name : String}
    (hn : (j.prepared env u).work.graph.node? id = some n)
  (hname : n.kind.variableName? = some name)

include hn hname

theorem variable_prepared :
    ∃ t, (∀ index ∈ n.variablePorts, (j.prepared env u).work.terms.net? ⟨id, index⟩ = some t) ∧
    if name ∈ (((j.prepared env u).work.locals.map fun l => (l.name, l.type)) ++
        ((j.prepared env u).work.graph.nodes.takeWhile fun x => x.1 ≠ id).flatMap fun x =>
          x.2.temporaries).map Prod.fst
      then (j.prepared env u).work.terms.find? .local name = some t
      else (j.prepared env u).work.terms.member? env.schema name = some t := by
  have hregister := Working.registerTerms_variable env (checked_graph hv ▸ hn) hname
    (orderly_checked hj hv)
    (checked_terms env u j ▸ indexed_opened hj hv) (net?_checked hj hv) (prepared_work hv ▸ hv)
  rw [← prepared_work hv, checked_graph hv, checked_terms, locals_opened hj hv] at hregister
  exact hregister

theorem resolved_prepared : ∃ t, (j.prepared env u).work.terms.resolved? env.schema name = some t := by
  obtain ⟨t, _, h⟩ := variable_prepared hj hv hn hname
  rw [TermTable.resolved?]
  split at h
  · rw [h]
    exact ⟨t, rfl⟩
  · rw [h]
    cases (j.prepared env u).work.terms.find? .local name <;> exact ⟨_, rfl⟩

end Job

namespace Compiler

variable {c : Compiler} {u : CompilationUnit} {cls : CompiledClass} {i : Nat} {j : Job}
    {f : CompiledFunction}

/-- The locals of a function are those of its entry and those that the nodes make. The ports of a
variable are bound to what its name denotes just if no node before makes a local of that name, and
the variable is set to a value in what its name denotes just if no node at all does so. -/
theorem compile_denotes_iff (hreg : c.registry = .standard) (hmode : c.options.mode = .full)
    (h : c.compile u = .ok cls) (hj : (c.precompiled u)[i]? = some j)
    (hf : cls.functions[i]? = some f) (hlive : f.abandoned = false) {id : NodeId} {n : ScriptNode}
    {name : String} (hn : j.work.graph.node? id = some n)
    (hname : n.kind.variableName? = some name) :
    j.work.terms.declares .local = (j.work.locals.map fun l => (l.name, l.type)) ++
      j.work.graph.nodes.flatMap (fun x => x.2.temporaries) ∧
    (∃ t, (∀ index ∈ n.variablePorts, j.work.terms.net? ⟨id, index⟩ = some t) ∧
      (j.work.denoted? (c.env u) name = some t ↔
        j.work.isClear (j.work.graph.nodes.takeWhile fun x => x.1 ≠ id) name = true)) ∧
    ∃ t, (∀ dest src, (id, .assign dest src) ∈ f.body.lines → dest = t) ∧
      (Registry.standard.isPure n = false → n.kind = .variableSet name →
        (n.findPort? "value" .input).isSome = true →
        ∃ src, (id, .assign t src) ∈ f.body.lines) ∧
      (j.work.denoted? (c.env u) name = some t ↔ j.work.isClear j.work.graph.nodes name = true) := by
  obtain ⟨_, _, s, hs, hbody⟩ := function_of_compile hreg hmode h hj hf hlive
  obtain ⟨j₀, hj₀, _, rfl, hv⟩ := prepared_of_compile hreg hmode h hj hf hlive
  have hinitial := Job.ofUnit_initial hj₀
  have hlocals := Job.locals_prepared hinitial hv
  obtain ⟨t, hports, hbefore⟩ := Job.variable_prepared hinitial hv hn hname
  -- When the code is emitted, the name is looked up again, and all nodes have made their locals.
  obtain ⟨t', ht'⟩ := Job.resolved_prepared hinitial hv hn hname
  have hend := (Job.indexed_prepared hinitial hv).resolved?_cases ht'
  rw [hlocals] at hend
  obtain ⟨hdest, hset⟩ := Build.lines_variable hs hn hname ht' (Job.patched_keepsReturns _ _) hbody
  exact ⟨hlocals, ⟨t, hports, Job.denoted_prepared hinitial hv hbefore⟩, t', hdest, hset,
    Job.denoted_prepared hinitial hv hend⟩

def forceGraph (title : String) : ScriptGraph where
  name := "open"
  slots :=
    [some ((ScriptNode.entry "open").addPorts [.dataOut "by" ⟨.int, .single⟩]),
      some { ScriptNode.variableSet "push_force" ⟨.int, .single⟩ with order := 1 },
      some { (ScriptNode.call "push").addPorts [.dataOut "force" ⟨.int, .single⟩] with title, order := 2 }]
  links := [⟨2, ⟨1, 1⟩, ⟨2, 0⟩, .control⟩, ⟨1, ⟨0, 1⟩, ⟨1, 2⟩, .data⟩, ⟨0, ⟨0, 0⟩, ⟨1, 0⟩, .control⟩]
  linkBound := 3
  nextOrder := 3

def force (title : String) : CompilationUnit :=
  { name := "Door", fields := [{ name := "push_force", type := ⟨.int,
    .single⟩ }], functionGraphs := [forceGraph title] }

def forceEnv : Env where
  schema :=
    { name := "Door"
      members := .ofList [("push_force", ⟨"push_force", ⟨.int, .single⟩, false, none⟩)]
      functions := .ofList [("open", 0)]
      eventGraphFunction := "ExecuteEventGraph_Door" }

theorem schema_force (title : String) : Schema.ofUnit (force title) = (forceEnv.schema, []) := by
  have hgraph : Schema.eventGraphName "Door" = "ExecuteEventGraph_Door" := rfl
  have hname : (forceGraph title).functionName = "open" := by cbv
  simp only [Schema.ofUnit, force, Schema.addFunctions, hname, hgraph]
  rfl

theorem ofUnit_force (title : String) :
    Job.ofUnit (force title) forceEnv.schema = [openingJob (forceGraph title)] := by
  have hevents : (EventGraph.ofUnit (force title) forceEnv.schema).1.events.isEmpty = true := by cbv
  have hpages : (force title).eventGraphs.isEmpty = true := rfl
  simp only [Job.ofUnit, hevents, hpages]
  rfl

theorem env_force (title : String) : env {} (force title) = forceEnv := env_of_schema (schema_force title)

abbrev forcedJob (title : String) : Job := (openingJob (forceGraph title)).prepared forceEnv (force title)

theorem compile_force {title : String}
    (hpasses : (openingJob (forceGraph title)).passes forceEnv (force title) = true) :
    ∃ cls f, compile {} (force title) = .ok cls ∧ cls.isSuccess = true ∧
      (precompiled {} (force title))[0]? = some (forcedJob title) ∧ cls.functions[0]? = some f ∧
        f.abandoned = false :=
  compile_single (schema_force title) (ofUnit_force title) hpasses

theorem passes_shove : (openingJob (forceGraph "shove")).passes forceEnv (force "shove") = true := by cbv

/-- Under a title of its own the call does not get in the way. -/
theorem shove_denoted :
    ∃ cls j f n, compile {} (force "shove") = .ok cls ∧ (precompiled {} (force "shove"))[0]? = some j ∧
    cls.functions[0]? = some f ∧ f.abandoned = false ∧ j.work.graph.node? 1 = some n ∧
      n.kind.variableName? = some "push_force" ∧
    n.variablePorts = [3] ∧ j.work.denoted? forceEnv "push_force" = some 1 ∧
      j.work.terms.net? ⟨1, 3⟩ = some 1 ∧
    (∀ dest src, (1, .assign dest src) ∈ f.body.lines → dest = 1) ∧ ∃ src,
    (1, .assign 1 src) ∈ f.body.lines := by
  obtain ⟨cls, f, hcls, _, hj, hf, hlive⟩ := compile_force passes_shove
  have hnode : ((forcedJob "shove").work.graph.node? 1).map (fun n =>
      (n.kind, Registry.standard.isPure n, n.variablePorts, (n.findPort? "value" .input).isSome)) =
        some (.variableSet "push_force", false, [3], true) := by cbv
  obtain ⟨n, hn, hnode⟩ := Option.map_eq_some_iff.mp hnode
  obtain ⟨hkind, hpure, hports, hvalue⟩ : _ ∧ _ ∧ _ ∧ _ := by simpa only [Prod.mk.injEq] using hnode
  have hname : n.kind.variableName? = some "push_force" := by rw [hkind]; rfl
  have hdenoted : (forcedJob "shove").work.denoted? forceEnv "push_force" = some 1 := by cbv
  have hbefore : (forcedJob "shove").work.isClear
      ((forcedJob "shove").work.graph.nodes.takeWhile fun x => x.1 ≠ 1)
        "push_force" = true := by cbv
  have hall : (forcedJob "shove").work.isClear
      (forcedJob "shove").work.graph.nodes "push_force" = true := by cbv
  obtain ⟨_, ⟨t, hbound, ht⟩, t', hdest, hset, ht'⟩ :=
    compile_denotes_iff rfl rfl hcls hj hf hlive hn hname
  rw [env_force] at ht ht'
  cases hdenoted.symm.trans (ht.mpr hbefore)
  cases hdenoted.symm.trans (ht'.mpr hall)
  exact ⟨cls, _, f, n, hcls, hj, hf, hlive, hn, hname, hports, hdenoted,
    hbound 3 (by simp [hports]), hdest, hset hpure hkind hvalue⟩

theorem passes_push : (openingJob (forceGraph "push")).passes forceEnv (force "push") = true := by cbv

/-- The local that is made for the output of the call has the name of the variable, and takes its value. -/
theorem push_captures : ∃ cls j f n, compile {} (force "push") = .ok cls ∧ cls.isSuccess = true ∧
    (precompiled {} (force "push"))[0]? = some j ∧ cls.functions[0]? = some f ∧ f.abandoned = false ∧
    j.work.graph.node? 1 = some n ∧ n.kind = .variableSet "push_force" ∧
      j.work.denoted? forceEnv "push_force" = some 1 ∧
    j.work.terms.net? ⟨1, 3⟩ = some 1 ∧ j.work.terms.net? ⟨2, 2⟩ = some 2 ∧
      (1, .assign 2 0) ∈ f.body.lines := by
  obtain ⟨cls, f, hcls, hsuccess, hj, hf, hlive⟩ := compile_force passes_push
  have hnode : ((forcedJob "push").work.graph.node? 1).map (fun n => n.kind) =
      some (.variableSet "push_force") := by cbv
  obtain ⟨n, hn, hkind⟩ := Option.map_eq_some_iff.mp hnode
  refine ⟨cls, _, f, n, hcls, hsuccess, hj, hf, hlive, hn, hkind, by cbv, by cbv, by cbv, ?_⟩
  have hschedule : (forcedJob "push").work.schedule .standard =
      .ok ⟨[0, 1, 2], [(0, []), (1, []), (2, [])]⟩ := by cbv
  have hblocks : (Build.blocks .standard forceEnv ⟨[0, 1, 2], [(0, []), (1, []), (2, [])]⟩
      (forcedJob "push").work).1 =
        [⟨0, [(0, .goto (.node 1))]⟩, ⟨1, [(1, .assign 2 0), (1, .goto (.node 2))]⟩,
          ⟨2, [(2, .callFunction "push" [] [2]), (2, .endOfThread)]⟩] := by cbv
  obtain ⟨originOf, hbody⟩ := body_of_compile rfl rfl hcls hj hf hlive (env_force "push") hschedule hblocks
  rw [hbody, Body.lines_mapStatements, Statement.mem_map_assign (Job.patched_keepsReturns _ _),
    Block.assign_mem_lines_link]
  exact ⟨_, List.mem_cons_of_mem _ List.mem_cons_self, List.mem_cons_self⟩

end Compiler

end VisualScript
