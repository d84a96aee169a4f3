import VisualScript.Proofs.Compile.Success

namespace VisualScript

namespace Graph

variable {g : ScriptGraph}

theorem Admissible.not_successor (h : g.Admissible) (htidy : g.Tidy) {e : NodeId} {n : ScriptNode}
    (hn : g.node? e = some n) (hk : n.kind.tag = .functionEntry) (id : NodeId) :
    e ∉ g.successors id .control := by
  intro he
  obtain ⟨_, l, hl, hrole, _, rfl⟩ := htidy.mem_successors.mp he
  have hport := (h.typed l hl).2
  rw [port?, hn, Option.bind_some, hrole, Option.any_eq_true] at hport
  obtain ⟨p, hp, his⟩ := hport
  have hinput : n.hasControlInput = true := List.any_eq_true.mpr ⟨p, List.mem_of_getElem? hp, his⟩
  rw [h.entries _ n hn hk] at hinput
  cases hinput

end Graph

theorem Job.patched_keepsJumps (jobs : List Job) (role : FunctionRole) :
    Statement.KeepsJumps (patched jobs role) := by
  have hpatch (offsets : List (String × Nat)) : Statement.KeepsJumps (patchStatement offsets) := by
    constructor <;> intro s hs <;> cases s <;> first | rfl | cases hs
  unfold patched
  split
  · exact hpatch _
  · exact ⟨fun _ _ => rfl, fun _ hs => hs⟩

theorem Working.WellFormed.impure {w : Working} {e : NodeId} (h : w.WellFormed e)
    (hadm : w.graph.Admissible) :
    ∃ n, w.graph.node? e = some n ∧ n.kind.tag = .functionEntry ∧ Registry.standard.isPure n = false := by
  obtain ⟨n, hn, hk⟩ := h.node
  refine ⟨n, hn, by cases hkind : n.kind <;> simp_all [NodeKind.entrySpec?, NodeKind.tag], ?_⟩
  cases hp : Registry.standard.isPure n with
  | false => rfl
  | true =>
      have hvalue := (hadm.values e n hn hp).1
      cases hkind : n.kind <;> simp_all [NodeKind.entrySpec?, NodeKind.isValue]

namespace Build

variable {w : Working} {s : Schedule}

theorem blockStart_entry (env : Env) (hadm : w.graph.Admissible) (hs : w.schedule .standard = .ok s)
    {e : NodeId} (he : w.WellFormed e) (hlink : Block.Linkable (blocks .standard env s w).1)
    (originOf : NodeId → Option Origin) :
    (Body.link (blocks .standard env s w).1 originOf).blockStart? e = some 0 := by
  obtain ⟨n, hn, hk, hp⟩ := he.impure hadm
  have hschedule : w.graph.schedule (some e) Registry.standard.isPure = .ok s := he.entry ▸ hs
  have hfirst := Graph.head_linear hschedule ⟨n, hn, hp⟩ fun a _ => hadm.not_successor he.tidy hn hk a
  rw [← map_node_blocks .standard env s w, List.head?_map, List.head?_eq_getElem?] at hfirst
  obtain ⟨b, hb, rfl⟩ := Option.map_eq_some_iff.mp hfirst
  exact Block.blockStart_of_nodup hlink.nodup originOf hb

end Build

namespace Compiler

variable {c : Compiler} {u : CompilationUnit} {cls : CompiledClass} {j : Job}

theorem precompiled_live (hreg : c.registry = .standard) (hj : j ∈ c.precompiled u)
    (hlive : j.abandoned = false) :
    (∃ e, j.work.WellFormed e) ∧ ∀ id n, j.work.graph.node? id = some n →
      ∀ p ∈ n.portsWhere .control .output,
      (j.work.graph.farEnds ⟨id, p.1⟩).length ≤ 1 := by
  rw [precompiled, registered, hreg, List.map_map] at hj
  obtain ⟨j₀, hj₀, rfl⟩ := List.mem_map.mp hj
  exact ⟨Job.precompile_wellFormed hj₀ hlive, fun id n hn p hp => Job.precompile_controlOutput hlive hn hp⟩

/-- Compiled code does what the graph does: started at a node that runs, body and graph pass through the
same states, whatever statements mean. The code starts with the entry, and no control output leads to
two places. -/
theorem compile_follows_graph (hreg : c.registry = .standard)
    (hmode : c.options.mode = .full) (h : c.compile u = .ok cls) {i : Nat} {f : CompiledFunction}
    (hj : (c.precompiled u)[i]? = some j) (hf : cls.functions[i]? = some f) (hlive : f.abandoned = false)
    (hadm : j.work.graph.Admissible) :
    ∃ s F, j.work.schedule .standard = .ok s ∧
      (Build.blocks .standard (c.env u) s j.work).2.graph = j.work.graph ∧
      j.work.Flows (c.env u) s (Job.patched (c.built u) j.work.role) F ∧
      (∀ id n, j.work.graph.node? id = some n → ∀ p ∈ n.portsWhere .control .output,
        (j.work.graph.farEnds ⟨id, p.1⟩).length ≤ 1) ∧
      (∃ e, j.work.entry = some e ∧ F.runs e = true ∧ f.body.blockStart? e = some 0) ∧
      ∀ (σ : Type) (m : Meaning σ) id, F.runs id = true → ∃ pc, f.body.blockStart? id = some pc ∧
        ∀ (pending : List NodeId) (state : σ),
          Simulates (F.step m) (Body.step m f.body.statements) (Block.Follows f.body)
            (.running id pending state)
            (.running pc (pending.map fun k => Body.resolve f.body.blockStarts (.node k)) state) := by
  obtain ⟨hlive', _, s, hs, hbody⟩ := function_of_compile hreg hmode h hj hf hlive
  obtain ⟨⟨e, he⟩, hfan⟩ := precompiled_live hreg (List.mem_of_getElem? hj) hlive'
  obtain ⟨n, hn, _, hp⟩ := he.impure hadm
  obtain ⟨F, hflows, hrealises⟩ := Build.blocks_realise (c.env u) hadm hs
  have hgraph := (Build.Respects.mapM (Build.block_respects (c.env u) s) s.linear j.work).graph
  have hnodup := Build.nodup_blocks (c.env u) hs
  have hφ := Job.patched_keepsJumps (c.built u) j.work.role
  refine ⟨s, F.mapCode _, hs, hgraph, hflows.mapCode _, hfan, ⟨e, he.entry, ?_, ?_⟩, fun σ m id hid => ?_⟩
  · exact (hflows.runs e).mpr ⟨n, hn, hp⟩
  · rw [hbody]
    exact Build.blockStart_entry (c.env u) hadm hs he (hrealises.linkable hnodup)
      fun id => (Build.blocks .standard (c.env u) s j.work).2.provenance.get? id
  · rw [hbody]
    exact hrealises.simulates_map hnodup _ hφ m hid

def doorGraph : ScriptGraph where
  name := "open"
  slots :=
    [some (ScriptNode.entry "open"), some { ScriptNode.branch with order := 1 },
      some { (ScriptNode.pureCall "isLocked").addPorts [.dataOut "value"
        ⟨.bool, .single⟩] with order := 2 },
      some { ScriptNode.sequence 2 with order := 3 }, some { ScriptNode.call "push" with order := 4 },
      some { ScriptNode.result with order := 5 }, some { ScriptNode.call "unlock" with order := 6 }]
  links :=
    [⟨6, ⟨6, 1⟩, ⟨3, 0⟩, .control⟩, ⟨5, ⟨3, 2⟩, ⟨5, 0⟩, .control⟩, ⟨4, ⟨3, 1⟩, ⟨4, 0⟩, .control⟩,
      ⟨3, ⟨1, 3⟩, ⟨3, 0⟩, .control⟩, ⟨2, ⟨1, 2⟩, ⟨6, 0⟩, .control⟩, ⟨1, ⟨2, 0⟩, ⟨1, 1⟩, .data⟩,
      ⟨0, ⟨0, 0⟩, ⟨1, 0⟩, .control⟩]
  linkBound := 7
  nextOrder := 7

def door : CompilationUnit := { name := "Door", functionGraphs := [doorGraph] }

def doorEnv : Env where
  schema := {
    name := "Door", functions := .ofList [("open", 0)], eventGraphFunction := "ExecuteEventGraph_Door" }

def opening (g : ScriptGraph) : CompilationUnit := { name := "Door", functionGraphs := [g] }

abbrev openingJob (g : ScriptGraph) : Job := { work := .ofAuthored "open" .function g }

abbrev preparedJob (g : ScriptGraph) : Job := (openingJob g).prepared doorEnv (opening g)

section

variable {g : ScriptGraph} (hname : g.functionName = "open")
include hname

theorem schema_opening : Schema.ofUnit (opening g) = (doorEnv.schema, []) := by
  have hgraph : Schema.eventGraphName "Door" = "ExecuteEventGraph_Door" := rfl
  simp only [Schema.ofUnit, opening, Schema.addFunctions, hname, hgraph]
  rfl

theorem env_opening : env {} (opening g) = doorEnv := env_of_schema (schema_opening hname)

omit hname in
theorem ofUnit_opening (g : ScriptGraph) : Job.ofUnit (opening g) doorEnv.schema = [openingJob g] := by
  have hevents : (EventGraph.ofUnit (opening g) doorEnv.schema).1.events.isEmpty = true := by cbv
  have hpages : (opening g).eventGraphs.isEmpty = true := rfl
  simp only [Job.ofUnit, hevents, hpages]
  rfl

theorem registered_opening :
    (registered {} (opening g))[0]? =
      some ((openingJob g).registerSignature .standard doorEnv (opening g)) := by
  rw [registered, env_opening hname, ofUnit_opening g]
  rfl

theorem compile_opening (hpasses : (openingJob g).passes doorEnv (opening g) = true) :
    ∃ cls f, compile {} (opening g) = .ok cls ∧ cls.isSuccess = true ∧
      (precompiled {} (opening g))[0]? = some (preparedJob g) ∧ cls.functions[0]? = some f ∧
        f.abandoned = false :=
  compile_single (schema_opening hname) (ofUnit_opening g) hpasses

end

theorem passes_door : (openingJob doorGraph).passes doorEnv (opening doorGraph) = true := by cbv

theorem door_follows_graph : ∃ cls j f, compile {} door = .ok cls ∧ (precompiled {} door)[0]? = some j ∧
    cls.functions[0]? = some f ∧ f.abandoned = false ∧ j.work.graph.Admissible ∧
    ∃ F : FlowGraph, F.runs 0 = true ∧ ∀ (σ : Type) (m : Meaning σ) (state : σ),
      Simulates (F.step m) (Body.step m f.body.statements) (Block.Follows f.body) (.running 0 [] state)
        (.running 0 [] state) := by
  obtain ⟨cls, f, hcls, _, hj, hf, hlive⟩ := compile_opening (by cbv) passes_door
  have hentry : (preparedJob doorGraph).work.entry = some 0 := by cbv
  have hgraph : (preparedJob doorGraph).work.graph = doorGraph := by cbv
  have hadm : (preparedJob doorGraph).work.graph.Admissible := by
    rw [hgraph]
    decide
  obtain ⟨_, F, _, _, _, _, ⟨e, he, hruns, hstart⟩, hsimulates⟩ :=
    compile_follows_graph rfl rfl hcls hj hf hlive hadm
  obtain rfl : e = 0 := Option.some.inj (he.symm.trans hentry)
  refine ⟨cls, _, f, hcls, hj, hf, hlive, hadm, F, hruns, fun σ m state => ?_⟩
  obtain ⟨pc, hpc, hfrom⟩ := hsimulates σ m 0 hruns
  obtain rfl : pc = 0 := Option.some.inj (hpc.symm.trans hstart)
  exact hfrom [] state

end Compiler

end VisualScript
