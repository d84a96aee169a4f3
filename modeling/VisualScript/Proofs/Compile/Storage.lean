import VisualScript.Proofs.Compile.ControlFlow
import VisualScript.Proofs.Working.Settling

namespace VisualScript

theorem Body.forall_terms {b : Body} {bound : Nat} :
    (∀ t ∈ b.terms, t < bound) ↔ Within bound b.statements := by
  rw [terms, List.forall_mem_flatMap]
  rfl

theorem Job.terms_patched (jobs : List Job) (role : FunctionRole) (s : Statement) :
    (patched jobs role s).terms = s.terms := by
  unfold patched
  split
  · cases s <;> rfl
  · rfl

namespace Compiler

variable {c : Compiler} {u : CompilationUnit} {cls : CompiledClass} {j : Job}

/-- The symbols of a function are its terms before code is emitted. They are all that its body uses just if
every node that is emitted is settled. -/
theorem compile_stores_iff (hreg : c.registry = .standard) (hmode : c.options.mode = .full)
    (h : c.compile u = .ok cls) {i : Nat} {f : CompiledFunction}
    (hj : (c.precompiled u)[i]? = some j) (hf : cls.functions[i]? = some f)
    (hlive : f.abandoned = false) :
    (∀ t, f.symbols.symbols.contains t = true ↔ (j.work.terms.get? t).isSome = true) ∧
    ∃ s, j.work.schedule .standard = .ok s ∧
      ((∀ t ∈ f.body.terms, f.symbols.symbols.contains t = true) ↔
        ∀ id ∈ s.emissionOrder, ∀ n, j.work.graph.node? id = some n →
          j.work.isSettled (c.env u) id n = true) := by
  obtain ⟨hlive', hsymbols, s, hs, hbody⟩ := function_of_compile hreg hmode h hj hf hlive
  obtain ⟨⟨e, he⟩, _⟩ := precompiled_live hreg (List.mem_of_getElem? hj) hlive'
  have hstored (t : TermId) : f.symbols.symbols.contains t = true ↔ t < j.work.terms.terms.length := by
    rw [hsymbols]
    exact SymbolTable.contains_ofTerms he.terms _ _
  refine ⟨fun t => ?_, s, hs, ?_⟩
  · rw [hstored, TermTable.get?]
    simp
  · have hcode : f.body.statements.map Statement.terms =
        (Body.link (Build.blocks .standard (c.env u) s j.work).1 fun id =>
          (Build.blocks .standard (c.env u) s j.work).2.provenance.get? id).statements.map
            Statement.terms := by
      rw [hbody]
      simp [Function.comp_def, Job.terms_patched]
    simp only [hstored]
    rw [Body.forall_terms, within_congr hcode, Body.within_link, Build.blocks_tells (c.env u) he.terms]

theorem door_stored : ∃ cls j f, compile {} door = .ok cls ∧ (precompiled {} door)[0]? = some j ∧
    cls.functions[0]? = some f ∧ f.abandoned = false ∧
    ∀ t ∈ f.body.terms, f.symbols.symbols.contains t = true := by
  obtain ⟨cls, f, hcls, _, hj, hf, hlive⟩ := compile_opening (by cbv) passes_door
  have hall : ((preparedJob doorGraph).work.graph.stored.all fun x =>
      (preparedJob doorGraph).work.isSettled doorEnv x.1 x.2) = true := by cbv
  obtain ⟨_, s, _, hiff⟩ := compile_stores_iff rfl rfl hcls hj hf hlive
  refine ⟨cls, _, f, hcls, hj, hf, hlive, hiff.mpr fun id _ n hn => ?_⟩
  rw [env_opening (by cbv)]
  exact List.all_eq_true.mp hall (id, n) (Graph.mem_stored.mpr hn)

def nudgeGraph : ScriptGraph where
  name := "open"
  slots :=
    [some (ScriptNode.entry "open"),
      some { (ScriptNode.call "push").addPorts [.dataIn "force" ⟨.int, .single⟩
        (some "3")] with order := 1 }]
  links := [⟨0, ⟨0, 0⟩, ⟨1, 0⟩, .control⟩]
  linkBound := 1
  nextOrder := 2

def nudge : CompilationUnit := { name := "Door", functionGraphs := [nudgeGraph] }

theorem passes_nudge : (openingJob nudgeGraph).passes doorEnv (opening nudgeGraph) = true := by cbv

/-- The literal that stands in for the force has no storage. -/
theorem nudge_not_stored :
    ∃ cls f, compile {} nudge = .ok cls ∧ cls.functions[0]? = some f ∧ f.abandoned = false ∧
    ∃ t ∈ f.body.terms, f.symbols.symbols.contains t = false := by
  obtain ⟨cls, f, hcls, _, _, hf, hlive⟩ := compile_opening (by cbv) passes_nudge
  have hterms : (Job.patchAll (built {} (opening nudgeGraph))).map (fun j =>
      (j.finalBody .full).terms.any fun t => !j.symbols.symbols.contains t) = [true] := by
    rw [built_standard rfl, env_opening (by cbv)]
    cbv
  obtain ⟨j, hj, hterm⟩ := List.map_eq_singleton_iff.mp hterms
  obtain ⟨t, ht, hmissing⟩ := List.any_eq_true.mp hterm
  have hnone : j.symbols.symbols.contains t = false := by simpa using hmissing
  have hfinish : f = j.finish {} := by
    rw [functions_of_compile rfl hcls, hj] at hf
    exact (Option.some.inj hf).symm
  exact ⟨cls, f, hcls, hf, hlive, t, hfinish ▸ ht, hfinish ▸ hnone⟩

end Compiler

end VisualScript
