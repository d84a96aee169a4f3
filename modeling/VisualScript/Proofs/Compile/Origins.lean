import VisualScript.Proofs.Compile.Returns
import VisualScript.Proofs.Event.Origins

namespace VisualScript

/-- Just the nodes of the graph have origins, and no origin nests deeper than the limit. -/
structure Working.Attributed (limit : Nat) (w : Working) : Prop where
  live : ∀ k, (w.provenance.get? k).isSome = true ↔ (w.graph.node? k).isSome = true
  shallow : ∀ {k : NodeId} {o : Origin}, w.provenance.get? k = some o → o.callSites.length ≤ limit

theorem Working.Traced.attributed {u : CompilationUnit} {A : SourceRef → Prop} {limit : Nat}
    {muted : NodeId → Prop} {w : Working} (h : w.Traced u A limit muted) : w.Attributed limit :=
  ⟨fun k => by rw [h.live k], fun ho => (h.rooted ho).shallow⟩

/-- For each statement there is a node and an origin. -/
structure Body.Attributed (b : Body) : Prop where
  nodes : b.statementNodes.length = b.statements.length
  origins : b.origins.length = b.statements.length
  known : ∀ o ∈ b.origins, o.isSome = true

namespace Block

theorem attributed_link {blocks : List Block} {originOf : NodeId → Option Origin}
    (h : ∀ b ∈ blocks, ∀ t ∈ b.statements, (originOf t.1).isSome = true) :
    (Body.link blocks originOf).Attributed where
  nodes := by simp only [Body.link, List.length_map]
  origins := by simp only [Body.link, List.length_map]
  known o ho := by
    obtain ⟨t, ht, rfl⟩ := List.mem_map.mp ho
    obtain ⟨b, hb, ht⟩ := List.mem_flatMap.mp ht
    obtain ⟨b', hb', ht'⟩ := mem_fallThrough hb ht
    exact h b' hb' t ht'

end Block

namespace Build

variable {env : Env} {w : Working} {s : Schedule}

theorem node_of_blocks (hs : w.schedule .standard = .ok s) {b : Block}
    (hb : b ∈ (blocks .standard env s w).1) {t : NodeId × Statement} (ht : t ∈ b.statements) :
    ∃ n, w.graph.node? t.1 = some n := by
  obtain ⟨id, hid, v, -, rfl, -⟩ := Respects.mem_mapM (block_respects env s) hb
  rw [block_eq] at ht
  rcases List.mem_append.mp ht with ht | ht
  · exact (Graph.mem_prelude hs (fst_mem_prelude ht)).imp fun _ => And.left
  · obtain ⟨lead, -, he⟩ := emit_eq .standard env id ((s.prelude id).mapM (emit .standard env) v).2
    rw [he] at ht
    obtain ⟨c, -, rfl⟩ := List.mem_map.mp ht
    exact ((Graph.mem_linear hs).mp hid).imp fun _ => And.left

theorem attributed_blocks (h : w.Accounted) (hs : w.schedule .standard = .ok s) :
    (Body.link (blocks .standard env s w).1 fun id => (blocks .standard env s w).2.provenance.get?
      id).Attributed := by
  refine Block.attributed_link fun b hb t ht => ?_
  obtain ⟨n, hn⟩ := node_of_blocks hs hb ht
  rw [(blocks_speaks env s w).provenance, h.live, hn]
  rfl

end Build

namespace Compiler

variable {c : Compiler} {u : CompilationUnit} {cls : CompiledClass} {j : Job}

theorem registered_traced (hreg : c.registry = .standard) (hj : j ∈ c.registered u) :
    j.work.Traced u (fun _ => True) c.options.maxExpansionDepth fun _ => False := by
  obtain ⟨j₀, hj₀, rfl⟩ := List.mem_map.mp hj
  obtain ⟨A, muted, htraced, hcareful⟩ := Job.ofUnit_traced hj₀ c.options.maxExpansionDepth
  rw [hreg]
  exact (Job.registerSignature_traced htraced (Job.ofUnit_initial hj₀).terms hcareful).unmute

theorem precompiled_accounted (hreg : c.registry = .standard) (hj : j ∈ c.precompiled u) :
    j.work.Accounted := by
  obtain ⟨j₀, hj₀, rfl⟩ := List.mem_map.mp hj
  rw [hreg]
  exact (Job.precompile_traced (registered_traced hreg hj₀) fun _ _ => trivial).toAccounted

theorem function_attributed (hreg : c.registry = .standard) (h : c.compile u = .ok cls)
    {f : CompiledFunction} (hf : f ∈ cls.functions) (hlive : f.abandoned = false) :
    f.body.Attributed := by
  cases hmode : c.options.mode with
  | skeleton =>
      rw [eq_skeleton hmode h] at hf
      obtain ⟨j, -, rfl⟩ := List.mem_map.mp hf
      have hbody : (j.finish c.options).body = {} := by simp only [Job.finish, Job.finalBody, hmode]
      rw [hbody]
      exact ⟨rfl, rfl, List.forall_mem_nil _⟩
  | full =>
      obtain ⟨i, hi⟩ := List.getElem?_of_mem hf
      obtain ⟨j, hj⟩ : ∃ j, (c.precompiled u)[i]? = some j := by
        rw [functions_of_compile hmode h, List.getElem?_map, Job.patchAll_getElem?, built,
          List.getElem?_map] at hi
        cases hj : (c.precompiled u)[i]? with
        | some j => exact ⟨j, rfl⟩
        | none => rw [hj] at hi; cases hi
      obtain ⟨_, _, s, hs, hbody⟩ := function_of_compile hreg hmode h hj hi hlive
      have hlinked := @Build.attributed_blocks (c.env u) _ _
        (precompiled_accounted hreg (List.mem_of_getElem? hj)) hs
      rw [hbody]
      exact ⟨hlinked.nodes.trans (List.length_map _).symm,
        hlinked.origins.trans (List.length_map _).symm, hlinked.known⟩

/-- Origins are total and exact. All along the expansion of a function, when it is over and when the
function was pruned, just the nodes of the graph have origins, and none nests deeper than the limit.
An expansion attributes what it brings in to the instance. So each statement of a body has an
origin. -/
theorem origins_exact (hreg : c.registry = .standard) (u : CompilationUnit) :
    (∀ j ∈ c.registered u,
      (∀ {steps : Nat} {a : Expansion.Loop},
        Expansion.Loop.Runs (c.env u) u.macros steps (.start j.work) a →
        a.state.work.Attributed c.options.maxExpansionDepth ∧
        ∀ {b : Expansion.Loop}, Expansion.Loop.Step (c.env u) u.macros a b → a.Attributes u.macros b) ∧
      (∃ steps last, Expansion.Loop.Runs (c.env u) u.macros steps (.start j.work) last ∧
        last.state = j.work.expand (c.env u) u.macros) ∧
      (j.work.expand (c.env u) u.macros).work.Attributed c.options.maxExpansionDepth ∧
      (j.work.pruned .standard (c.env u) u.macros).Attributed c.options.maxExpansionDepth ∧
      ∀ {body : Body}, (Build.body .standard (c.env u)
        (j.work.precompile .standard (c.env u) u.macros)).1 = some body →
        body.Attributed) ∧
    ∀ {cls : CompiledClass}, c.compile u = .ok cls → ∀ f ∈ cls.functions, f.abandoned = false →
      f.body.Attributed := by
  refine ⟨fun j hj => ?_, fun h f hf hlive => function_attributed hreg h hf hlive⟩
  have htraced := registered_traced hreg hj
  have hexpanded := @Expansion.expand_traced u (fun _ => True) (fun _ => False) (c.env u) j.work
    htraced fun _ _ => trivial
  refine ⟨fun hruns => ?_, Expansion.Loop.runs_expand _ _ _, hexpanded.attributed,
    (hexpanded.prune .standard).attributed, fun hbody => ?_⟩
  · have hreached := (hruns.traced (fun _ _ => trivial) (Expansion.Loop.start_traced htraced)).work
    exact ⟨hreached.attributed, fun hstep => hstep.attributes hreached.toAccounted⟩
  · obtain ⟨s, hs, rfl⟩ := Build.body_eq_some hbody
    exact Build.attributed_blocks (htraced.precompile_of_expand hexpanded).toAccounted hs

/-- A function that leaves through a composite, to which the node that was inlined is attributed. -/
theorem leave_origins_exact :
    ∃ cls f, ({} : Compiler).registry = .standard ∧ compile {} (opening leaveGraph) = .ok cls ∧
    cls.functions[0]? = some f ∧ f.abandoned = false ∧ f.body.Attributed ∧
    f.body.origins = [some ⟨⟨"leave", 1⟩, [⟨"open", 1⟩], false⟩] := by
  obtain ⟨cls, f, hcls, -, hj, hf, hlive⟩ := compile_opening (by cbv) passes_leave
  refine ⟨cls, f, rfl, hcls, hf, hlive,
    (origins_exact rfl (opening leaveGraph)).2 hcls f (List.mem_of_getElem? hf) hlive, ?_⟩
  have horigin : (Build.blocks .standard doorEnv ⟨[0, 3], [(0, []), (3, [])]⟩
      (preparedJob leaveGraph).work).2.provenance.get? 3 =
        some ⟨⟨"leave", 1⟩, [⟨"open", 1⟩], false⟩ := by cbv
  obtain ⟨_, _, s, hs, hbody⟩ := function_of_compile rfl rfl hcls hj hf hlive
  rw [schedule_leave] at hs
  rw [hbody, ← Except.ok.inj hs, show env {} (opening leaveGraph) = doorEnv from env_opening (by cbv)]
  simp only [blocks_leave]
  exact congrArg (fun o => [o]) horigin

end Compiler

end VisualScript
