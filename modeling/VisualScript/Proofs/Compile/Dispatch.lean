import VisualScript.Proofs.Compile.Skeleton
import VisualScript.Proofs.Event.Offsets

namespace VisualScript

namespace Job

variable {u : CompilationUnit} {schema : Schema}

theorem ofUnit_of_pages (hfunctions : schema.functions = ∅) (hpages : u.eventGraphs.isEmpty = false) :
    ofUnit u schema = (EventGraph.ofUnit u schema).1.events.values.map ofEvent ++
      [eventGraphOf u schema] := by
  simp only [ofUnit, hfunctions, hpages, Bool.and_false, Bool.false_eq_true, if_false]
  rfl

theorem ofEvent_role (info : EventInfo) :
    (ofEvent info).work.role = .eventStub := by simp [ofEvent, Working.ofGraph]

theorem ofUnit_of_role {j : Job} (hj : j ∈ ofUnit u schema) (hrole : j.work.role = .eventGraph) :
    j = eventGraphOf u schema ∧
    ∃ before, ofUnit u schema = before ++ [eventGraphOf u schema] ∧ ∀ j ∈ before,
    j.work.role ≠ .eventGraph := by
  obtain ⟨functions, hroles, ⟨_, he⟩ | he⟩ := ofUnit_cases u schema <;> rw [he] at hj
  · rw [hroles j hj] at hrole
    cases hrole
  · have hbefore (j : Job) (hj : j ∈ functions ++
        (EventGraph.ofUnit u schema).1.events.values.map ofEvent) :
        j.work.role ≠ .eventGraph := by
      rcases List.mem_append.mp hj with hj | hj
      · rw [hroles j hj]
        exact FunctionRole.noConfusion
      · obtain ⟨info, _, rfl⟩ := List.mem_map.mp hj
        rw [ofEvent_role]
        exact FunctionRole.noConfusion
    refine ⟨?_, _, he, hbefore⟩
    rcases List.mem_append.mp hj with hj | hj
    · exact absurd hrole (hbefore j hj)
    · exact List.mem_singleton.mp hj

theorem prepared_same (env : Env) (u : CompilationUnit) (j : Job) :
    j.work.SameFunction (j.prepared env u).work :=
  IsTrans.trans _ _ _ (registerSignature_sameFunction env u j) (precompile_same env u.macros _).work

theorem compileBody_graph (env : Env) (j : Job) :
    (j.compileBody .standard env).work.graph = j.work.graph := by
  unfold compileBody
  extract_lets j'
  split
  · rfl
  · exact (Build.body_respects env j.work).graph

theorem patched_of_ne (jobs : List Job) (role : FunctionRole) {s : Statement}
    (h : ∀ function event offset, s ≠ .callEventGraph function event offset) :
    patched jobs role s = s := by
  unfold patched
  split
  · cases s <;> first | rfl | exact absurd rfl (h _ _ _)
  · rfl

end Job

/-- The stub of an event passes the parameters on and enters the event graph where the event starts. The
two term tables are those of the stub and of the event graph. -/
structure EventInfo.Dispatched (info : EventInfo) (n : ScriptNode) (stub main : CompiledFunction)
    (passed kept : TermTable) : Prop where
  stub_role : stub.role = .eventStub
  stub_name : stub.name = info.spec.name
  main_role : main.role = .eventGraph
  body : ∃ stores offset, stub.body.statements = stores ++
    [.callEventGraph main.name info.spec.name (some offset), .ret] ∧
    info.Forwards passed stores ∧ main.body.blockStart? info.node = some offset ∧ 1 ≤ offset
  slots : ∀ {i : Nat} {p : Param}, info.params[i]? = some p →
    ∃ q, (n.portsWhere .data .output)[i]? = some q ∧
    kept.Binds ⟨info.node, q.1⟩ fun a => a.kind = .persistentFrame ∧
      a.name = slotName info.spec.name p.name
  entry : ∃ index a, main.body.statements.head? = some (.computedGoto index) ∧ kept.get? index = some a ∧
    a.kind = .parameter ∧ a.declared = entryPointParam

namespace Compiler

variable {c : Compiler} {u : CompilationUnit} {cls : CompiledClass} {info : EventInfo}

theorem precompiled_of_event (hreg : c.registry = .standard)
    (hinfo : info ∈ (EventGraph.ofUnit u (c.env u).schema).1.events.values) :
    ∃ before after : List Job, c.precompiled u =
      (before ++ Job.ofEvent info :: after ++ [Job.eventGraphOf u (c.env u).schema]).map
        (Job.prepared (c.env u) u) ∧ ∀ j ∈ before ++ Job.ofEvent info :: after,
        j.work.role ≠ .eventGraph := by
  obtain ⟨functions, hroles, ⟨hnone, _⟩ | hjobs⟩ := Job.ofUnit_cases u (c.env u).schema
  · rw [hnone] at hinfo
    cases hinfo
  obtain ⟨first, last, hvalues⟩ := List.append_of_mem hinfo
  rw [hvalues, List.map_append, List.map_cons, ← List.append_assoc] at hjobs
  refine ⟨functions ++ first.map Job.ofEvent, last.map Job.ofEvent, hjobs ▸ precompiled_eq hreg u,
    fun j hj => ?_⟩
  simp only [List.mem_append, List.mem_cons, List.mem_map] at hj
  rcases hj with (hj | ⟨info', _, rfl⟩) | rfl | ⟨info', _, rfl⟩
  · simp [hroles j hj]
  all_goals simp [Job.ofEvent_role]

theorem eventOffsets_built (hreg : c.registry = .standard) {before : List Job}
    (hjobs : c.precompiled u = (before ++ [Job.eventGraphOf u (c.env u).schema]).map
      (Job.prepared (c.env u) u))
    (hroles : ∀ j ∈ before, j.work.role ≠ .eventGraph)
    (hlive : (((Job.eventGraphOf u (c.env u).schema).prepared (c.env u) u).compileBody .standard
      (c.env u)).abandoned = false)
    {body : Body}
    (hbody : (((Job.eventGraphOf u (c.env u).schema).prepared (c.env u) u).compileBody .standard
      (c.env u)).body = some body) :
    Job.eventOffsets (c.built u) =
      some (((Job.eventGraphOf u (c.env u).schema).prepared (c.env u) u).work.graph.events.filterMap
      fun e => (body.blockStart? e.1).map fun offset => (e.2.name, offset)) := by
  have hrole (j : Job) : ((j.prepared (c.env u) u).compileBody .standard (c.env u)).work.role =
    j.work.role :=
    (Job.compileBody_sameFunction _ _).role.trans (Job.prepared_same _ u j).role
  have hfind : (c.built u).find? (fun j => j.work.role = .eventGraph && !j.abandoned) =
      some (((Job.eventGraphOf u (c.env u).schema).prepared (c.env u) u).compileBody .standard
        (c.env u)) := by
    rw [built, hreg, hjobs, List.map_append, List.map_append, List.map_map]
    refine List.find?_eq_some_iff_append.mpr ⟨?_, _, _, rfl, fun j hj => ?_⟩
    · rw [hlive, hrole, (Job.eventGraphOf_noted u (c.env u).schema).role]
      rfl
    · obtain ⟨j, hmem, rfl⟩ := List.mem_map.mp hj
      simp [hrole, hroles j hmem]
  have hgraph : (((Job.eventGraphOf u (c.env u).schema).prepared (c.env u) u).compileBody .standard
      (c.env u)).work.graph =
      ((Job.eventGraphOf u (c.env u).schema).prepared (c.env u) u).work.graph := Job.compileBody_graph _ _
  rw [Job.eventOffsets, hfind]
  simp only [hbody, Option.map_some, hgraph]

section Success

variable (hreg : c.registry = .standard) (hmode : c.options.mode = .full)
    (hdebug : c.options.debugInstrumentation = false)
  (hcomments : c.options.emitNodeComments = false) (h : c.compile u = .ok cls)
    (hsuccess : cls.isSuccess = true)

include hreg hmode hdebug hcomments h hsuccess

/-- The body of the event graph: a jump to where the parameter says, and the events behind it. -/
theorem eventGraph_of_success {before : List Job}
    (hjobs : c.precompiled u = (before ++ [Job.eventGraphOf u (c.env u).schema]).map
      (Job.prepared (c.env u) u))
    (hroles : ∀ j ∈ before, j.work.role ≠ .eventGraph) :
    ∃ main, cls.functions[before.length]? = some main ∧ main.role = .eventGraph ∧
      main.name = (c.env u).schema.eventGraphFunction ∧
      (∃ index a, main.body.statements.head? = some (.computedGoto index) ∧
        ((Job.eventGraphOf u (c.env u).schema).prepared (c.env u) u).work.terms.get? index = some a ∧
        a.kind = .parameter ∧ a.declared = entryPointParam) ∧
      (∀ {k : NodeId} {n : ScriptNode} {spec : EventSpec},
        (EventGraph.ofUnit u (c.env u).schema).1.graph.node? k = some n →
        n.kind = .event spec → n.isPure = false → ∃ offset, main.body.blockStart? k = some offset ∧
          1 ≤ offset) ∧
      Job.eventOffsets (c.built u) = some (((Job.eventGraphOf u (c.env u).schema).prepared (c.env u)
        u).work.graph.events.filterMap
        fun e => (main.body.blockStart? e.1).map fun offset => (e.2.name, offset)) := by
  have hj : (c.precompiled u)[before.length]? =
      some ((Job.eventGraphOf u (c.env u).schema).prepared (c.env u) u) := by
    rw [hjobs]
    simp
  obtain ⟨hv, hv', _, ⟨s, hs, _⟩, main, hmain, hlive, hname, hrole⟩ :=
    live_of_success hreg hmode h hsuccess hj
  obtain ⟨_, _, s', hs', hbody⟩ := function_of_compile hreg hmode h hj hmain hlive
  cases hs.symm.trans hs'
  have hsame := Job.prepared_same (c.env u) u (Job.eventGraphOf u (c.env u).schema)
  have hwork := Job.eventGraphOf_noted u (c.env u).schema
  rw [hsame.role, hwork.role] at hrole hbody
  rw [hsame.function, hwork.function] at hname
  have hpatched : Job.patched (c.built u) .eventGraph = id := funext fun _ => rfl
  simp only [Working.ofGraph, hpatched, List.map_id] at hrole hbody hname
  obtain ⟨index, hfirst, a, ha, hentry⟩ := Job.blocks_eventGraph hv hs hdebug hcomments
  obtain ⟨_, hlive', _⟩ := Job.compileBody_clean rfl hv'
  obtain ⟨_, _, _, s', hs', hcompiled⟩ := Job.compileBody_live hlive'
  cases hs.symm.trans hs'
  refine ⟨main, hmain, hrole, hname, ⟨index, a, ?_, ha, hentry⟩, fun hn hk hpure => ?_, ?_⟩
  · rw [hbody]
    -- A jump that is computed is not dropped in front of the next block.
    have hcode : [(0, Statement.computedGoto index)].map Prod.snd = [] ++ .computedGoto index :: [] := rfl
    rcases Block.fetch (fun id => _) hfirst hcode with hhead | ⟨b, _, he, _⟩
    · rw [List.head?_eq_getElem?]
      exact hhead
    · cases he
  · rw [hbody]
    exact Job.start_of_event hv hs hfirst _ hn hk hpure
  · rw [eventOffsets_built hreg hjobs hroles hlive' hcompiled, hbody]

/-- The body of a stub: it stores its parameters, calls the event graph with what is known of the
event, and returns. -/
theorem stub_of_success {i : Nat}
    (hj : (c.precompiled u)[i]? = some ((Job.ofEvent info).prepared (c.env u) u)) :
    ∃ stub j stores, cls.functions[i]? = some stub ∧ (c.built u)[i]? = some j ∧
      stub.role = .eventStub ∧ stub.name = info.spec.name ∧
      stub.body.statements = stores ++ [Job.patched (c.built u) .eventStub
        (.callEventGraph (c.env u).schema.eventGraphFunction info.spec.name none), .ret] ∧
      (info.params.length < 65534 → info.Forwards j.work.terms stores) := by
  obtain ⟨hv, hv', hbuilt, ⟨s, hs, hwork⟩, stub, hstub, hlive, hname, hrole⟩ :=
    live_of_success hreg hmode h hsuccess hj
  obtain ⟨_, _, s', hs', hbody⟩ := function_of_compile hreg hmode h hj hstub hlive
  cases hs.symm.trans hs'
  have hsame := Job.prepared_same (c.env u) u (Job.ofEvent info)
  have hfunction : (Job.ofEvent info).work.function = info.spec.name := by
    simp [Job.ofEvent, Working.ofGraph, EventInfo.stub]
  rw [hsame.role, Job.ofEvent_role] at hrole hbody
  rw [hsame.function, hfunction] at hname
  have hgraph := Job.graph_ofEvent info hv
  have horderly := Job.orderly_prepared hv (Job.ofEvent_orderly info)
  rw [hwork] at hv'
  obtain ⟨hstored, hstatements⟩ := info.statements_stub hgraph horderly hdebug hcomments hs hv'
    fun id => (Build.blocks .standard (c.env u) s
      ((Job.ofEvent info).prepared (c.env u) u).work).2.provenance.get? id
  rw [hstored] at hv'
  refine ⟨stub, _, (info.storing ((Job.ofEvent info).prepared (c.env u) u).work).1, hstub, hbuilt,
    hrole, hname, ?_, fun hfew => ?_⟩
  · -- Patching changes the call of the event graph and nothing else.
    have hstores : (info.storing ((Job.ofEvent info).prepared (c.env u) u).work).1.map
        (Job.patched (c.built u) .eventStub) =
        (info.storing ((Job.ofEvent info).prepared (c.env u) u).work).1 := by
      refine (List.map_congr_left fun s hmem => ?_).trans (List.map_id _)
      obtain ⟨dest, src, rfl⟩ := info.mem_stores horderly hv' hmem
      exact Job.patched_of_ne _ _ fun _ _ _ => Statement.noConfusion
    have hret : Job.patched (c.built u) .eventStub .ret = .ret :=
      Job.patched_of_ne _ _ fun _ _ _ => Statement.noConfusion
    rw [hbody]
    simp only [hstatements, List.map_append, hstores, List.map_cons, List.map_nil, hret]
  · rw [hwork, hstored]
    exact info.storing_forwards hgraph horderly hv' hfew fun hp => Job.binds_ofEvent info hv hfew hp

end Success

/-- Events are dispatched: the stub of an event stores its parameters where the event reads them, and
calls the event graph with the offset at which the event starts. -/
theorem compile_dispatches (hreg : c.registry = .standard) (hmode : c.options.mode = .full)
    (hdebug : c.options.debugInstrumentation = false)
    (hcomments : c.options.emitNodeComments = false) (h : c.compile u = .ok cls)
    (hsuccess : cls.isSuccess = true)
    (hinfo : info ∈ (EventGraph.ofUnit u (c.env u).schema).1.events.values)
    (hpure : ∀ n, (EventGraph.ofUnit u (c.env u).schema).1.graph.node? info.node = some n →
      n.isPure = false)
    (hfew : info.params.length < 65534)
    (hports : ∀ n, (EventGraph.ofUnit u (c.env u).schema).1.graph.node? info.node = some n →
      ((n.portsWhere .data .output).map Prod.fst).Nodup) :
    ∃ n, (EventGraph.ofUnit u (c.env u).schema).1.graph.node? info.node = some n ∧
      n.kind = .event info.spec ∧
      info.params = EventGraph.eventParams n ∧
      ∃ i k : Nat, ∃ stub main, ∃ j g : Job, cls.functions[i]? = some stub ∧ (c.built u)[i]? = some j ∧
        cls.functions[k]? = some main ∧ (c.precompiled u)[k]? = some g ∧
          main.name = (c.env u).schema.eventGraphFunction ∧
        info.Dispatched n stub main j.work.terms g.work.terms := by
  obtain ⟨before, after, hjobs, hroles⟩ := precompiled_of_event hreg hinfo
  obtain ⟨hgrown, hknown, _⟩ := EventGraph.ofUnit_consolidated u (c.env u).schema
  obtain ⟨name, hget⟩ := OrderedMap.mem_values.mp hinfo
  obtain ⟨rfl, n, hn, hk, hparams⟩ := hknown name info hget
  have hstub : (c.precompiled u)[before.length]? = some ((Job.ofEvent info).prepared (c.env u) u) := by
    rw [hjobs]
    simp
  have hmain : (c.precompiled u)[(before ++ Job.ofEvent info :: after).length]? =
      some ((Job.eventGraphOf u (c.env u).schema).prepared (c.env u) u) := by
    rw [hjobs]
    simp
  obtain ⟨stub, j, stores, hfunction, hbuilt, hrole, hname, hbody, hforwards⟩ :=
    stub_of_success hreg hmode hdebug hcomments h hsuccess hstub
  obtain ⟨main, hfunction', hrole', hname', hentry, hstart, hoffsets⟩ :=
    eventGraph_of_success hreg hmode hdebug hcomments h hsuccess hjobs hroles
  obtain ⟨offset, hoffset, hpos⟩ := hstart hn hk (hpure n hn)
  have hv := (live_of_success hreg hmode h hsuccess hmain).1
  have hdescends := (Job.pruned_eventGraph u (c.env u).schema (c.env u)).1
  rw [← Job.graph_eventGraph hv] at hdescends
  -- Among the offsets read off the body, the first under the event's name is that of its node.
  have hlookup := EventGraph.lookup_event hgrown.ready hknown (Job.complete_of_clean hv) hdescends
    hget hoffset
  refine ⟨n, hn, hk, hparams, _, _, stub, main, j, _, hfunction, hbuilt, hfunction', hmain, hname',
    hrole, hname, hrole', ?_, ?_, hentry⟩
  · refine ⟨stores, offset, ?_, hforwards hfew, hoffset, hpos⟩
    have hcall : Job.patched (c.built u) .eventStub
        (.callEventGraph (c.env u).schema.eventGraphFunction info.spec.name none) =
        .callEventGraph main.name info.spec.name (some offset) := by
      simp only [Job.patched, hoffsets, Job.patchStatement, hlookup, hname']
    rw [hbody, hcall]
  · intro i p hp
    rw [hparams, EventGraph.eventParams, List.getElem?_map] at hp
    obtain ⟨q, hq, rfl⟩ := Option.map_eq_some_iff.mp hp
    exact ⟨q, hq, Job.binds_event hv hn hk (hports n hn) (List.mem_of_getElem? hq)⟩

theorem event_bell :
    ∃ info, (EventGraph.ofUnit bell bellEnv.schema).1.events.values = [info] ∧ info.spec.name = "Hit" ∧
    info.params = [⟨"force", ⟨.int, .single⟩, .input⟩] ∧ info.node = 1 := by
  have hvalues : (EventGraph.ofUnit bell bellEnv.schema).1.events.values.map
      (fun info => (info.spec.name, info.params, info.node)) =
      [("Hit", [⟨"force", ⟨.int, .single⟩, .input⟩], 1)] := by cbv
  obtain ⟨info, hone, hinfo⟩ := List.map_eq_singleton_iff.mp hvalues
  obtain ⟨hname, hparams, hnode⟩ := by simpa only [Prod.mk.injEq] using hinfo
  exact ⟨info, hone, hname, hparams, hnode⟩

theorem bell_dispatches :
    ∃ (cls : CompiledClass) (info : EventInfo) (n : ScriptNode) (i k : Nat)
      (stub main : CompiledFunction) (j g : Job),
    compile {} bell = .ok cls ∧ cls.isSuccess = true ∧ info.spec.name = "Hit" ∧
      info.params = [⟨"force", ⟨.int, .single⟩, .input⟩] ∧
    cls.functions[i]? = some stub ∧ (built {} bell)[i]? = some j ∧ cls.functions[k]? = some main ∧
      (precompiled {} bell)[k]? = some g ∧
    main.name = "ExecuteEventGraph_Bell" ∧ info.Dispatched n stub main j.work.terms g.work.terms := by
  obtain ⟨cls, hcls, hsuccess⟩ := compile_bell
  obtain ⟨info, hvalues, hname, hparams, hnode⟩ := event_bell
  have hinfo : info ∈ (EventGraph.ofUnit bell bellEnv.schema).1.events.values :=
    hvalues ▸ List.mem_singleton_self _
  have hfound : ((EventGraph.ofUnit bell bellEnv.schema).1.graph.node? 1).map
      (fun n => (n.isPure, (n.portsWhere .data .output).map Prod.fst)) = some (false, [1]) := by cbv
  have hevent (n : ScriptNode)
      (hn : (EventGraph.ofUnit bell (env {} bell).schema).1.graph.node? info.node = some n) :
      n.isPure = false ∧ (n.portsWhere .data .output).map Prod.fst = [1] := by
    rw [env_bell, hnode] at hn
    rw [hn] at hfound
    simpa only [Option.map_some, Option.some.injEq, Prod.mk.injEq] using hfound
  obtain ⟨n, _, _, _, i, k, stub, main, j, g, hstub, hj, hmain, hg, hmainName, hdispatched⟩ :=
    compile_dispatches (c := {}) (u := bell) rfl rfl rfl rfl hcls hsuccess (env_bell ▸ hinfo)
      (fun n hn => (hevent n hn).1) (hparams ▸ by decide)
        (fun n hn => by rw [(hevent n hn).2]; exact List.nodup_singleton _)
  rw [env_bell] at hmainName
  exact ⟨cls, info, n, i, k, stub, main, j, g, hcls, hsuccess, hname, hparams, hstub, hj, hmain, hg,
    hmainName, hdispatched⟩

def ringing (ports : List Port) : ScriptNode :=
  { kind := .event { name := "Ring" }, title := "Ring", ports, order := 1 }

def exchangePage (ports : List Port) : ScriptGraph where
  name := "Events"
  slots := [some (ringing ports)]
  nextOrder := 2

def exchange (ports : List Port) : CompilationUnit where
  name := "Exchange"
  eventGraphs := [exchangePage ports]

def exchangeEnv : Env where
  schema :=
    { name := "Exchange"
      events := ["Ring"]
      eventGraphFunction := "ExecuteEventGraph_Exchange" }

def exchangeGraph (ports : List Port) : ScriptGraph where
  name := "ExecuteEventGraph_Exchange"
  slots := [some (EventGraph.entryNode "ExecuteEventGraph_Exchange"), some (ringing ports)]
  nextOrder := 2

def exchangeStart (ports : List Port) (p : Provenance) : Working :=
  .ofGraph "ExecuteEventGraph_Exchange" .eventGraph (exchangeGraph ports) p

/-- Both parameters came to port 0, and the later one has it. -/
def exchangeTerms : TermTable where
  terms :=
    [⟨0, "EntryPoint", "EntryPoint", ⟨.int, .single⟩, .parameter, none⟩,
      ⟨1, "Ring_line", "Ring_line", ⟨.int, .single⟩, .persistentFrame, none⟩,
      ⟨2, "Ring_desk", "Ring_desk", ⟨.int, .single⟩, .persistentFrame, none⟩]
  nets := .ofList [(⟨0, 1⟩, 0), (⟨1, 0⟩, 2)]
  declared := .ofList [((.parameter, "EntryPoint"), 0), ((.persistentFrame, "Ring_line"), 1),
    ((.persistentFrame, "Ring_desk"), 2)]
  names := .ofList [("EntryPoint", 0), ("Ring_line", 0), ("Ring_desk", 0)]

def exchangeWork (ports : List Port) (p : Provenance) : Working :=
  { exchangeStart ports p with terms := exchangeTerms }

section Exchange

variable {ports : List Port}

theorem schema_exchange : Schema.ofUnit (exchange ports) = (exchangeEnv.schema, []) := by
  have hgraph : Schema.eventGraphName "Exchange" = "ExecuteEventGraph_Exchange" := rfl
  have hevents : Schema.eventNames [exchangePage ports] = ["Ring"] := by cbv
  simp only [Schema.ofUnit, exchange, hgraph, hevents]
  rfl

theorem env_exchange : env {} (exchange ports) = exchangeEnv := env_of_schema schema_exchange

theorem graph_exchange :
    (EventGraph.ofUnit (exchange ports) exchangeEnv.schema).1.graph = exchangeGraph ports := by cbv

theorem events_exchange : (EventGraph.ofUnit (exchange ports) exchangeEnv.schema).1.events.values =
    [⟨1, { name := "Ring" }, EventGraph.eventParams (ringing ports),
      some ⟨⟨"Events", 0⟩, [], false⟩⟩] := by cbv

theorem nodes_exchange :
    (exchangeGraph ports).nodes =
      [(0, EventGraph.entryNode "ExecuteEventGraph_Exchange"), (1, ringing ports)] := by cbv

variable (ports) in
theorem start_exchange :
    ∃ p, (Job.eventGraphOf (exchange ports) exchangeEnv.schema).work = exchangeStart ports p := by
  have hissues : (EventGraph.ofUnit (exchange ports) exchangeEnv.schema).2 = [] := by cbv
  refine ⟨(EventGraph.ofUnit (exchange ports) exchangeEnv.schema).1.provenance, ?_⟩
  rw [Job.eventGraphOf, hissues, Job.ofEventGraph, graph_exchange]
  rfl

variable (hports : (ringing ports).portsWhere .data .output =
  [(0, .dataOut "line" ⟨.int, .single⟩), (0, .dataOut "desk" ⟨.int, .single⟩)])
  (houtputs : ∀ p ∈ ports, p.is .data .input = false)

include hports in
theorem register_exchange (p : Provenance) :
    (exchangeStart ports p).registerTerms .standard exchangeEnv true = exchangeWork ports p := by
  have hrun (w : Working) (hw : w.graph = exchangeGraph ports) :
      Registry.standard.registerNode exchangeEnv 1 w =
      (([(0, .dataOut "line" ⟨.int, .single⟩), (0, .dataOut "desk" ⟨.int, .single⟩)] :
        List (UInt16 × Port)).forM fun p =>
        Build.classSlot .persistentFrame (slotName "Ring" p.2.name) p.2.type 1 >>=
          Build.bind ⟨1, p.1⟩) w := by
    have hn : w.graph.node? 1 = some (ringing ports) := by
      rw [hw]
      rfl
    rw [Working.registerNode_eq hn (h := Handler.event) rfl, Handler.event]
    simp only [hports]
    rfl
  have hnodes : (exchangeStart ports p).graph.nodes = _ := nodes_exchange
  have hentry : Registry.standard.isEarly (EventGraph.entryNode "ExecuteEventGraph_Exchange") = true := rfl
  have hring : Registry.standard.isEarly (ringing ports) = true := rfl
  rw [Working.registerTerms, hnodes, List.foldl_cons, List.foldl_cons, List.foldl_nil, if_pos hring,
    if_pos hentry, hrun _ (by cbv)]
  cbv

include hports in
theorem registered_exchange :
    ∃ p, ((Job.eventGraphOf (exchange ports) exchangeEnv.schema).registerSignature .standard exchangeEnv
    (exchange ports)).work = exchangeWork ports p := by
  obtain ⟨p, hstart⟩ := start_exchange ports
  have hentries : (exchangeStart ports p).validateEntries = exchangeStart ports p := by cbv
  refine ⟨p, ?_⟩
  rw [Job.registerSignature, hstart, hentries, register_exchange hports]
  cbv

include houtputs in
theorem precompile_exchange (p : Provenance) :
    (exchangeWork ports p).precompile .standard exchangeEnv ∅ = exchangeWork ports p := by
  have hexpand : ((exchangeWork ports p).expand exchangeEnv ∅).work = exchangeWork ports p := by cbv
  have hprune : ((exchangeWork ports p).prune .standard exchangeEnv
      ((exchangeWork ports p).roots .standard exchangeEnv)).2 =
      exchangeWork ports p := by cbv
  have hvalid : (exchangeWork ports p).validateGraph .standard = exchangeWork ports p := by
    refine Working.validateGraph_of_unlinked rfl rfl fun x hx => ?_
    have hnodes : (exchangeWork ports p).graph.nodes = _ := nodes_exchange
    rw [hnodes, List.mem_cons, List.mem_singleton] at hx
    rcases hx with rfl | rfl
    · exact ⟨rfl, by decide⟩
    · exact ⟨rfl, houtputs⟩
  have hlate : (exchangeWork ports p).registerTerms .standard exchangeEnv false =
      exchangeWork ports p := by cbv
  have hnext (f : Working → Working) : (exchangeWork ports p).next f = f (exchangeWork ports p) := rfl
  rw [Working.precompile, hnext, hexpand, hnext, hprune, hvalid, hnext, hlate]

theorem body_exchange (p : Provenance) :
    (Build.body .standard exchangeEnv (exchangeWork ports p)).2 = exchangeWork ports p := by
  have hschedule : (exchangeWork ports p).schedule .standard = .ok ⟨[0, 1], [(0, []), (1, [])]⟩ := by cbv
  rw [Build.body, Build.bind_apply]
  simp only [Build.get_apply, hschedule]
  rfl

include hports houtputs in
theorem main_exchange :
    (Job.eventGraphOf (exchange ports) exchangeEnv.schema).passes exchangeEnv (exchange ports) = true ∧
    ((Job.eventGraphOf (exchange ports) exchangeEnv.schema).prepared exchangeEnv
      (exchange ports)).work.terms = exchangeTerms := by
  obtain ⟨p, hregistered⟩ := registered_exchange hports
  have hprepared : ((Job.eventGraphOf (exchange ports) exchangeEnv.schema).prepared exchangeEnv
      (exchange ports)).work = exchangeWork ports p := by
    rw [Job.prepared, Job.precompile, hregistered]
    exact precompile_exchange houtputs p
  have hlive : ((Job.eventGraphOf (exchange ports) exchangeEnv.schema).prepared exchangeEnv
    (exchange ports)).abandoned = false :=
    congrArg Working.hasErrors hprepared
  have hbuilt : (((Job.eventGraphOf (exchange ports) exchangeEnv.schema).prepared exchangeEnv
      (exchange ports)).compileBody
      .standard exchangeEnv).work = exchangeWork ports p := by
    rw [Job.compileBody, hlive, hprepared]
    exact body_exchange p
  refine ⟨?_, congrArg Working.terms hprepared⟩
  rw [Job.passes, Job.goesThrough, hregistered, hprepared, hbuilt]
  rfl

include hports in
theorem stub_exchange :
    (Job.ofEvent ⟨1, { name := "Ring" }, EventGraph.eventParams (ringing ports),
      some ⟨⟨"Events", 0⟩, [], false⟩⟩).passes
    exchangeEnv (exchange ports) = true := by
  rw [EventGraph.eventParams, hports]
  cbv

include hports houtputs in
theorem compile_exchange : ∃ cls, compile {} (exchange ports) = .ok cls ∧ cls.isSuccess = true := by
  refine success_of_schema schema_exchange (List.all_eq_true.mpr ?_)
  rw [Job.ofUnit_of_pages rfl rfl, events_exchange]
  refine List.forall_mem_append.mpr ⟨List.forall_mem_singleton.mpr (stub_exchange hports), ?_⟩
  exact List.forall_mem_singleton.mpr (main_exchange hports houtputs).1

end Exchange

def crowded (between : Nat) : List Port :=
  .dataOut "line" ⟨.int, .single⟩ ::
    (List.replicate between (.execOut "then") ++ [.dataOut "desk" ⟨.int, .single⟩])

theorem portsWhere_crowded (between : Nat) : (ringing (crowded between)).portsWhere .data .output =
    [(0, .dataOut "line" ⟨.int, .single⟩),
      (UInt16.ofNat (between + 1), .dataOut "desk" ⟨.int, .single⟩)] := by
  have hnone : (((List.replicate between (Port.execOut "then")).zipIdx 1).map
      fun p => (UInt16.ofNat p.2, p.1)).filter
      (fun p => p.2.is .data .output) = [] := by
    refine List.filter_eq_nil_iff.mpr fun p hp => ?_
    obtain ⟨q, hq, rfl⟩ := List.mem_map.mp hp
    rw [List.eq_of_mem_replicate (List.fst_mem_of_mem_zipIdx hq)]
    exact Bool.false_ne_true
  have hports : (ringing (crowded between)).ports = crowded between := rfl
  rw [Node.portsWhere, Node.indexed, hports, crowded, List.zipIdx_cons, List.zipIdx_append,
    List.length_replicate, List.map_cons,
    List.map_append, List.filter_cons, List.filter_append, hnone, Nat.add_comm]
  rfl

theorem outputs_crowded (between : Nat) : ∀ p ∈ crowded between, p.is .data .input = false := by
  rw [crowded, List.forall_mem_cons, List.forall_mem_append, List.forall_mem_singleton]
  refine ⟨rfl, fun p hp => ?_, rfl⟩
  rw [List.eq_of_mem_replicate hp]
  rfl

/-- The output of a parameter is not bound to its slot, but to that of a later parameter. -/
theorem exchange_misdirected : ∃ (cls : CompiledClass) (info : EventInfo) (n : ScriptNode) (g : Job),
    compile {} (exchange (crowded 65535)) = .ok cls ∧ cls.isSuccess = true ∧
    (EventGraph.ofUnit (exchange (crowded 65535)) exchangeEnv.schema).1.events.values = [info] ∧
      info.params.length = 2 ∧
    (EventGraph.ofUnit (exchange (crowded 65535)) exchangeEnv.schema).1.graph.node? info.node =
      some n ∧ n.isPure = false ∧
    (precompiled {} (exchange (crowded 65535)))[1]? = some g ∧ g.work.role = .eventGraph ∧
    ∀ (stub main : CompiledFunction) (passed : TermTable),
    ¬ info.Dispatched n stub main passed g.work.terms := by
  have hports := portsWhere_crowded 65535
  have houtputs := outputs_crowded 65535
  have hjobs : (precompiled {} (exchange (crowded 65535)))[1]? =
      some ((Job.eventGraphOf (exchange (crowded 65535)) exchangeEnv.schema).prepared exchangeEnv
        (exchange (crowded 65535))) := by
    rw [precompiled_eq rfl, env_exchange, Job.ofUnit_of_pages rfl rfl, events_exchange]
    rfl
  generalize crowded 65535 = ports at hports houtputs hjobs ⊢
  obtain ⟨cls, hcls, hsuccess⟩ := compile_exchange hports houtputs
  have hparams : EventGraph.eventParams (ringing ports) =
      [⟨"line", ⟨.int, .single⟩, .input⟩, ⟨"desk", ⟨.int, .single⟩, .input⟩] := by
    rw [EventGraph.eventParams, hports]
    rfl
  refine ⟨cls, _, ringing ports, _, hcls, hsuccess, events_exchange,
    by rw [hparams]; rfl, by rw [graph_exchange]; rfl, rfl, hjobs, ?_, ?_⟩
  · rw [(Job.prepared_same _ _ _).role, (Job.eventGraphOf_noted _ _).role]
    rfl
  · intro stub main passed hdispatched
    obtain ⟨q, hq, i, a, hnet, ha, _, hname⟩ := hdispatched.slots (i := 0) (by rw [hparams]; rfl)
    rw [hports] at hq
    cases hq
    rw [(main_exchange hports houtputs).2] at hnet ha
    cases hnet
    cases ha
    have hne : "Ring_desk" ≠ slotName "Ring" "line" := by decide
    exact hne hname

end Compiler

end VisualScript
