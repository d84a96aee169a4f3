import VisualScript.Proofs.Compile.Parameters
import VisualScript.Proofs.Working.Returns

namespace VisualScript

theorem Job.patched_keepsReturns (jobs : List Job) (role : FunctionRole) :
    Statement.KeepsReturns (patched jobs role) := by
  have hpatch (offsets : List (String × Nat)) : Statement.KeepsReturns (patchStatement offsets) := by
    constructor <;> intro s <;> cases s <;> simp [patchStatement]
  unfold patched
  split
  · exact hpatch _
  · exact ⟨fun _ _ _ => Iff.rfl, fun _ => Iff.rfl⟩

namespace TermTable

variable {t : TermTable} {declared : Signature} {name : String} {flags : Flags}
  (hdeclared : declared.params = (t.signature name flags).params) {output : String}
    (houtput : output ∈ (t.declares .output).map Prod.fst)

include hdeclared houtput

theorem exists_output : ∃ q ∈ declared.params, q.name = output ∧ q.direction = .output := by
  obtain ⟨d, hd, rfl⟩ := List.mem_map.mp houtput
  refine ⟨⟨d.1, d.2, .output⟩, ?_, rfl, rfl⟩
  rw [hdeclared, signature_eq]
  exact List.mem_append_right _ (List.mem_map.mpr ⟨d, hd, rfl⟩)

theorem param?_output : (∃ q, declared.param? output = some q ∧ q.direction = .output) ↔
    output ∉ (t.declares .parameter).map Prod.fst := by
  have hsplit : declared.param? output = (((t.declares .parameter).map
      fun d => (⟨d.1, d.2, .input⟩ : Param)).find? fun p => p.name = output).or
      (((t.declares .output).map fun d => (⟨d.1, d.2, .output⟩ : Param)).find? fun p => p.name =
        output) := by
    rw [Signature.param?, hdeclared, signature_eq, List.find?_append]
  constructor
  · rintro ⟨q, hq, hdirection⟩ hinput
    obtain ⟨d, hd, rfl⟩ := List.mem_map.mp hinput
    have hfound : (((t.declares .parameter).map fun e => (⟨e.1, e.2, .input⟩ : Param)).find?
      fun p => p.name = d.1).isSome = true :=
      List.find?_isSome.mpr ⟨⟨d.1, d.2, .input⟩, List.mem_map.mpr ⟨d, hd, rfl⟩, decide_eq_true rfl⟩
    obtain ⟨p, hp⟩ := Option.isSome_iff_exists.mp hfound
    rw [hsplit, hp, Option.some_or] at hq
    cases hq
    obtain ⟨_, _, rfl⟩ := List.mem_map.mp (List.mem_of_find?_eq_some hp)
    cases hdirection
  · intro hinput
    have hnone : (((t.declares .parameter).map fun d => (⟨d.1, d.2, .input⟩ : Param)).find?
        fun p => p.name = output) = none := by
      refine List.find?_eq_none.mpr (List.forall_mem_map.mpr fun d hd he => ?_)
      exact hinput (List.mem_map.mpr ⟨d, hd, of_decide_eq_true he⟩)
    obtain ⟨d, hd, rfl⟩ := List.mem_map.mp houtput
    have hfound : (((t.declares .output).map fun e => (⟨e.1, e.2, .output⟩ : Param)).find?
      fun p => p.name = d.1).isSome = true :=
      List.find?_isSome.mpr ⟨⟨d.1, d.2, .output⟩, List.mem_map.mpr ⟨d, hd, rfl⟩, decide_eq_true rfl⟩
    obtain ⟨q, hq⟩ := Option.isSome_iff_exists.mp hfound
    obtain ⟨_, _, rfl⟩ := List.mem_map.mp (List.mem_of_find?_eq_some hq)
    exact ⟨_, by rw [hsplit, hnone, Option.none_or, hq], rfl⟩

end TermTable

namespace Job

variable {env : Env} {u : CompilationUnit} {j : Job}

section Prepared

variable (hj : j.Initial) (hv : (j.prepared env u).work.hasErrors = false)

include hj hv

theorem stores_prepared {id : NodeId} {n₀ n : ScriptNode} (hn₀ : j.work.graph.node? id = some n₀)
    (hk₀ : n₀.kind = .functionResult) (hn : (j.prepared env u).work.graph.node? id = some n) :
    Handler.Stores id (n.portsWhere .data .input) (j.prepared env u).work.terms := by
  have hout := outline_prepared hj hv hn₀ (by rw [hk₀]; rfl) hn
  obtain ⟨hopened, horderly, hgraph, hchanges⟩ := precompile_registers hv (orderly_initial hj)
  have hstores : Handler.Stores id (n₀.portsWhere .data .input) (j.opened env).terms := by
    refine Working.registerTerms_result ?_ ?_ hopened
      ((Working.noted_validateEntries j.work).graph ▸ hn₀) hk₀
    · exact validateEntries_terms hj ▸ TermTable.orderly_empty
    · exact validateEntries_terms hj ▸ TermTable.indexed_empty
  refine (hstores.congr (Node.portNames_eq_of_outline hout .data .input)).mono ?_ fun index => ?_
  · exact fun hfind => TermTable.Changes.find? hchanges (indexed_opened hj hv) (by decide) hfind
  · refine TermTable.Changes.net? hchanges horderly ?_
    rintro ⟨m, hm, hlate⟩
    have hn' : (j.pruned env u).node? id = some n := hgraph ▸ hn
    cases hm.symm.trans hn'
    rw [Working.isEarly_eq, Node.kind_eq_of_outline hout, hk₀] at hlate
    cases hlate

theorem net?_prepared {id : NodeId} {n : ScriptNode}
    (hn : (j.prepared env u).work.graph.node? id = some n) (hk : n.kind = .functionResult)
    (hnew : ∀ n₀, j.work.graph.node? id = some n₀ → n₀.kind ≠ .functionResult) (index : UInt16) :
    (j.prepared env u).work.terms.net? ⟨id, index⟩ = none := by
  obtain ⟨_, horderly, hgraph, hchanges⟩ := precompile_registers hv (orderly_initial hj)
  have hlate : (j.prepared env u).work.terms.net? ⟨id, index⟩ = (j.opened env).terms.net? ⟨id, index⟩ := by
    refine TermTable.Changes.net? hchanges horderly ?_
    rintro ⟨m, hm, hlate⟩
    have hn' : (j.pruned env u).node? id = some n := hgraph ▸ hn
    cases hm.symm.trans hn'
    rw [Working.isEarly_eq, hk] at hlate
    cases hlate
  rw [hlate]
  exact net?_opened hj hv hn (fun n₀ hn₀ _ hkind => hnew n₀ hn₀ (hkind.trans hk)) index

theorem bound_prepared_iff {id : NodeId} {n : ScriptNode}
    (hn : (j.prepared env u).work.graph.node? id = some n) (hk : n.kind = .functionResult) :
    (∀ p ∈ n.portsWhere .data .input, ∃ dest, (j.prepared env u).work.terms.net? ⟨id, p.1⟩ = some dest ∧
      (j.prepared env u).work.terms.find? .output p.2.name = some dest) ↔
    ∀ p ∈ n.portsWhere .data .input, (∃ n₀, j.work.graph.node? id = some n₀ ∧ n₀.kind = .functionResult) ∧
      ∀ q ∈ n.portsWhere .data .input, q.1 = p.1 → q.2.name = p.2.name := by
  constructor
  · intro h p hp
    obtain ⟨dest, hnet, hfind⟩ := h p hp
    constructor
    · by_contra hnew
      rw [net?_prepared hj hv hn hk (fun n₀ hn₀ hk₀ => hnew ⟨n₀, hn₀, hk₀⟩)] at hnet
      cases hnet
    · intro q hq hindex
      obtain ⟨dest', hnet', hfind'⟩ := h q hq
      rw [hindex] at hnet'
      cases hnet.symm.trans hnet'
      exact ((indexed_prepared hj hv).find?_inj (by decide) (by decide) hfind' hfind).2
  · intro h p hp
    obtain ⟨⟨n₀, hn₀, hk₀⟩, hname⟩ := h p hp
    obtain ⟨q, hq, hindex, dest, hnet, hfind⟩ := (stores_prepared hj hv hn₀ hk₀ hn).bound p hp
    exact ⟨dest, hnet, hname q hq hindex ▸ hfind⟩

theorem output_signature {name : String}
    (hname : ((j.prepared env u).work.terms.find? .output name).isSome = true) :
    (∃ q ∈ (j.prepared env u).signature.params, q.name = name ∧ q.direction = .output) ↔
      (j.prepared env u).overrideOf = none ∨ (j.prepared env u).work.terms.find? .parameter name =
        none := by
  have hindexed := indexed_prepared hj hv
  have houtput := (hindexed.find?_isSome (by decide)).mp hname
  obtain ⟨declared, hdeclared, ⟨hnot, hparams⟩ | ⟨parent, hover, hissues, hparams⟩⟩ :=
    signature_prepared hv
  · rw [hparams]
    exact iff_of_true (TermTable.exists_output (hdeclared "" {}) houtput) (Or.inl hnot)
  · rw [hparams, or_iff_right hover, hindexed.find?_eq_none (by decide),
      ← TermTable.param?_output (hdeclared "" {}) houtput]
    constructor
    · rintro ⟨q, hq, rfl, hdirection⟩
      exact ⟨q, (SignatureMatch.mem_reordered.mp hq).2, hdirection⟩
    · rintro ⟨q, hq, hdirection⟩
      obtain ⟨hmem, rfl⟩ := Signature.param?_mem hq
      exact ⟨q, SignatureMatch.mem_reordered.mpr
        ⟨SignatureMatch.mem_paramNames_of_paramIssues hissues hmem, hq⟩, rfl, hdirection⟩

end Prepared

end Job

/-- A result's block stores all inputs and returns; the signature has outputs of their names. -/
structure CompiledFunction.Returns (f : CompiledFunction) (w : Working) (id : NodeId)
    (n : ScriptNode) : Prop where
  stored : w.StoresInputs id n (f.body.blockOf id)
  declared : ∀ p ∈ n.portsWhere .data .input, ∃ q ∈ f.signature.params, q.name = p.2.name ∧
    q.direction = .output

namespace Compiler

variable {c : Compiler} {u : CompilationUnit} {cls : CompiledClass} {i : Nat} {j₀ j : Job}
    {f : CompiledFunction}

/-- No value that a result returns is lost just if the result stood in the graph before it was
expanded, no two of its inputs share a position, and no input of a function that overrides another
has the name of an output. -/
theorem compile_returns_iff (hreg : c.registry = .standard) (hmode : c.options.mode = .full)
    (h : c.compile u = .ok cls) (hj₀ : (c.registered u)[i]? = some j₀)
    (hj : (c.precompiled u)[i]? = some j) (hf : cls.functions[i]? = some f)
    (hlive : f.abandoned = false) {id : NodeId} {n : ScriptNode}
    (hn : j.work.graph.node? id = some n) (hk : n.kind = .functionResult)
    (hp : Registry.standard.isPure n = false) :
    f.Returns (j.compileBody .standard (c.env u)).work id n ↔ ∀ p ∈ n.portsWhere .data .input,
      (∃ n₀, j₀.work.graph.node? id = some n₀ ∧ n₀.kind = .functionResult) ∧
      (∀ q ∈ n.portsWhere .data .input, q.1 = p.1 → q.2.name = p.2.name) ∧
      (f.overrideOf = none ∨ j.work.terms.find? .parameter p.2.name = none) := by
  obtain ⟨hab, _, s, hs, hbody⟩ := function_of_compile hreg hmode h hj hf hlive
  obtain ⟨hsignature, hoverride⟩ := signature_of_compile hreg hmode h hj hf
  obtain ⟨k, hk₀, hregistered, rfl, hv⟩ := prepared_of_compile hreg hmode h hj hf hlive
  cases hj₀.symm.trans hregistered
  have hinitial := Job.ofUnit_initial hk₀
  have hgraph : (k.registerSignature .standard (c.env u) u).work.graph = k.work.graph :=
    (Job.registerSignature_frame (c.env u) u k).graph.trans (Working.noted_validateEntries k.work).graph
  have hid : id ∈ s.linear := (Graph.mem_linear hs).mpr ⟨n, hn, hp⟩
  have hstored := Build.storesInputs_link hs hid hn hk (Job.patched_keepsReturns _ _) hbody
  rw [← Job.compileBody_work hab hs, Job.bound_prepared_iff hinitial hv hn hk, ← hgraph] at hstored
  have hdeclared (p : UInt16 × Port) (hp : p ∈ n.portsWhere .data .input)
      (hold : ∃ n₀, (k.registerSignature .standard (c.env u) u).work.graph.node? id = some n₀ ∧
        n₀.kind = .functionResult) :
      (∃ q ∈ f.signature.params, q.name = p.2.name ∧ q.direction = .output) ↔
        f.overrideOf = none ∨ (k.prepared (c.env u) u).work.terms.find? .parameter p.2.name = none := by
    obtain ⟨n₀, hn₀, hk₀⟩ := hold
    obtain ⟨dest, hdest⟩ := (Job.stores_prepared hinitial hv (hgraph ▸ hn₀) hk₀ hn).named p hp
    rw [hsignature, hoverride]
    exact Job.output_signature hinitial hv (by rw [hdest]; rfl)
  constructor
  · intro hreturns p hp
    obtain ⟨hold, hname⟩ := hstored.mp hreturns.stored p hp
    exact ⟨hold, hname, (hdeclared p hp hold).mp (hreturns.declared p hp)⟩
  · intro hports
    refine ⟨hstored.mpr fun p hp => ⟨(hports p hp).1, (hports p hp).2.1⟩, fun p hp => ?_⟩
    exact (hdeclared p hp (hports p hp).1).mpr (hports p hp).2.2

theorem kind_of_tag {kind : NodeKind} (h : kind.tag = .functionResult) : kind = .functionResult := by
  cases kind <;> first | rfl | cases h

theorem swing_returns : ∃ cls j₀ j f n, compile {} (opening swingGraph) = .ok cls ∧
    (registered {} (opening swingGraph))[0]? = some j₀ ∧ (precompiled {} (opening swingGraph))[0]? =
      some j ∧
    cls.functions[0]? = some f ∧ f.abandoned = false ∧ j.work.graph.node? 1 = some n ∧
      n.kind = .functionResult ∧
    Registry.standard.isPure n = false ∧
      (n.portsWhere .data .input).map (fun p => (p.1, p.2.name)) = [(1, "by")] ∧
    f.Returns (j.compileBody .standard doorEnv).work 1 n := by
  obtain ⟨cls, f, hcls, _, hj, hf, hlive⟩ := compile_opening (by cbv) passes_swing
  have hj₀ : (registered {} (opening swingGraph))[0]? = _ := registered_opening (by cbv)
  have henv : env {} (opening swingGraph) = doorEnv := env_opening (by cbv)
  have hnode : ((preparedJob swingGraph).work.graph.node? 1).map
      (fun n => (n.kind.tag, Registry.standard.isPure n,
        (n.portsWhere .data .input).map fun p => (p.1, p.2.name))) =
        some (.functionResult, false, [(1, "by")]) := by cbv
  obtain ⟨n, hn, hnode⟩ := Option.map_eq_some_iff.mp hnode
  obtain ⟨htag, hpure, hports⟩ : _ ∧ _ ∧ _ := by simpa only [Prod.mk.injEq] using hnode
  have hold : (((openingJob swingGraph).registerSignature .standard doorEnv
      (opening swingGraph)).work.graph.node? 1).map
      (fun n => n.kind.tag) = some .functionResult := by cbv
  obtain ⟨n₀, hn₀, htag₀⟩ := Option.map_eq_some_iff.mp hold
  have hnone : (preparedJob swingGraph).overrideOf = none := by cbv
  have hname (p : UInt16 × Port) (hp : p ∈ n.portsWhere .data .input) : p.2.name = "by" := by
    have hmem := List.mem_map_of_mem (f := fun p : UInt16 × Port => (p.1, p.2.name)) hp
    rw [hports] at hmem
    exact (Prod.mk.inj (List.mem_singleton.mp hmem)).2
  have hiff := compile_returns_iff rfl rfl hcls hj₀ hj hf hlive hn (kind_of_tag htag) hpure
  rw [henv] at hiff
  refine ⟨cls, _, _, f, n, hcls, hj₀, hj, hf, hlive, hn, kind_of_tag htag, hpure, hports,
    hiff.mpr fun p hp => ⟨?_, ?_, ?_⟩⟩
  · exact ⟨n₀, hn₀, kind_of_tag htag₀⟩
  · exact fun q hq _ => (hname q hq).trans (hname p hp).symm
  · exact Or.inl ((signature_of_compile rfl rfl hcls hj hf).2.trans hnone)

def leaveBody : ScriptGraph where
  name := "leave"
  slots :=
    [some ((ScriptNode.tunnel .input).addPorts [.execOut "exec", .dataOut "by" ⟨.int, .single⟩]),
      some { ScriptNode.result.addPorts [.dataIn "by" ⟨.int, .single⟩] with order := 1 }]
  links := [⟨1, ⟨0, 1⟩, ⟨1, 1⟩, .data⟩, ⟨0, ⟨0, 0⟩, ⟨1, 0⟩, .control⟩]
  linkBound := 2
  nextOrder := 2

def leaveGraph : ScriptGraph where
  name := "open"
  slots :=
    [some ((ScriptNode.entry "open").addPorts [.dataOut "by" ⟨.int, .single⟩]),
      some { (ScriptNode.composite leaveBody).addPorts [.execIn "exec",
        .dataIn "by" ⟨.int, .single⟩] with order := 1 }]
  links := [⟨1, ⟨0, 1⟩, ⟨1, 1⟩, .data⟩, ⟨0, ⟨0, 0⟩, ⟨1, 0⟩, .control⟩]
  linkBound := 2
  nextOrder := 2

theorem passes_leave : (openingJob leaveGraph).passes doorEnv (opening leaveGraph) = true := by cbv

theorem schedule_leave :
    (preparedJob leaveGraph).work.schedule .standard = .ok ⟨[0, 3], [(0, []), (3, [])]⟩ := by cbv

theorem blocks_leave :
    (Build.blocks .standard doorEnv ⟨[0, 3], [(0, []), (3, [])]⟩ (preparedJob leaveGraph).work).1 =
    [⟨0, [(0, .goto (.node 3))]⟩, ⟨3, [(3, .ret)]⟩] := by cbv

/-- The value has no output to go to. -/
theorem leave_not_returned :
    ∃ cls j f n, compile {} (opening leaveGraph) = .ok cls ∧ cls.isSuccess = true ∧
    (precompiled {} (opening leaveGraph))[0]? = some j ∧ cls.functions[0]? = some f ∧ f.abandoned = false ∧
    j.work.graph.node? 3 = some n ∧ n.kind = .functionResult ∧ Registry.standard.isPure n = false ∧
    (n.portsWhere .data .input).map (fun p => (p.1, p.2.name)) = [(1, "by")] ∧
    f.signature.params = [⟨"by", ⟨.int, .single⟩, .input⟩] ∧ f.body.blockOf 3 = [(3, .ret)] ∧
    ¬ f.Returns (j.compileBody .standard doorEnv).work 3 n := by
  obtain ⟨cls, f, hcls, hsuccess, hj, hf, hlive⟩ := compile_opening (by cbv) passes_leave
  have hnode : ((preparedJob leaveGraph).work.graph.node? 3).map
      (fun n => (n.kind.tag, Registry.standard.isPure n,
        (n.portsWhere .data .input).map fun p => (p.1, p.2.name))) =
        some (.functionResult, false, [(1, "by")]) := by cbv
  obtain ⟨n, hn, hnode⟩ := Option.map_eq_some_iff.mp hnode
  obtain ⟨htag, hpure, hports⟩ : _ ∧ _ ∧ _ := by simpa only [Prod.mk.injEq] using hnode
  have hparams : f.signature.params = [⟨"by", ⟨.int, .single⟩, .input⟩] := by
    rw [(signature_of_compile rfl rfl hcls hj hf).1]
    cbv
  refine ⟨cls, _, f, n, hcls, hsuccess, hj, hf, hlive, hn, kind_of_tag htag, hpure, hports, hparams,
    ?_, fun hreturns => ?_⟩
  · obtain ⟨originOf, hbody⟩ :=
      body_of_compile rfl rfl hcls hj hf hlive (env_opening (by cbv)) schedule_leave blocks_leave
    rw [hbody, Body.blockOf_mapStatements]
    exact congrArg (fun s => [(3, s)]) ((Job.patched_keepsJumps _ _).jump .ret rfl)
  · obtain ⟨p, _, hp, _⟩ := List.map_eq_cons_iff.mp hports
    obtain ⟨q, hq, _, hdirection⟩ := hreturns.declared p (hp ▸ List.mem_cons_self)
    rw [hparams] at hq
    cases List.mem_singleton.mp hq
    cases hdirection

end Compiler

end VisualScript
