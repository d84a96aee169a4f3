import VisualScript.Proofs.Compile.Signatures
import VisualScript.Proofs.Working.Jumps

namespace VisualScript

namespace Compiler

variable {c : Compiler} {u : CompilationUnit} {cls : CompiledClass} {i : Nat} {j : Job}
    {f : CompiledFunction}

/-- No control flow of a function is cut just if nothing jumps that a node of it only computes with,
and all control links that its code goes along lead to nodes that run. -/
theorem compile_uncut_iff (hreg : c.registry = .standard) (hmode : c.options.mode = .full)
    (h : c.compile u = .ok cls) (hj : (c.precompiled u)[i]? = some j)
    (hf : cls.functions[i]? = some f) (hlive : f.abandoned = false) :
    ∃ s blocks w, j.work.schedule .standard = .ok s ∧ Build.blocks .standard (c.env u) s j.work =
      (blocks, w) ∧
      f.body.statements = (Body.link blocks fun id => w.provenance.get? id).statements.map
        (Job.patched (c.built u) j.work.role) ∧
      (Block.Uncut blocks f.body ↔
        (∀ id ∈ s.linear, ∀ k ∈ s.prelude id, ∀ n, j.work.graph.node? k = some n → n.isQuiet = true) ∧
        ∀ id ∈ s.linear, ∀ n, j.work.graph.node? id = some n →
          ∀ k ∈ j.work.leadsTo id n, j.work.Runs k) := by
  obtain ⟨_, _, s, hs, hbody⟩ := function_of_compile hreg hmode h hj hf hlive
  refine ⟨s, (Build.blocks .standard (c.env u) s j.work).1,
    (Build.blocks .standard (c.env u) s j.work).2, hs, rfl, by rw [hbody], ?_⟩
  rw [← Build.uncut_iff hs fun id => (Build.blocks .standard (c.env u) s j.work).2.provenance.get?
    id, hbody]
  exact ⟨fun h => ⟨h.straight, h.linked⟩, fun h => ⟨h.straight, h.linked⟩⟩

theorem door_uncut : ∃ cls j f s blocks w, compile {} (opening doorGraph) = .ok cls ∧
    (precompiled {} (opening doorGraph))[0]? = some j ∧ cls.functions[0]? = some f ∧ f.abandoned = false ∧
    j.work.schedule .standard = .ok s ∧ Build.blocks .standard doorEnv s j.work = (blocks, w) ∧
      Block.Uncut blocks f.body := by
  obtain ⟨cls, f, hcls, _, hj, hf, hlive⟩ := compile_opening (by cbv) passes_door
  obtain ⟨s, blocks, w, hs, hblocks, _, hiff⟩ := compile_uncut_iff rfl rfl hcls hj hf hlive
  have hnodes : (fun w : Working => w.graph.stored.all fun x =>
      (!Registry.standard.isPure x.2 || x.2.isQuiet) &&
      (w.leadsTo x.1 x.2).all fun k => (w.graph.node? k).any fun m => !Registry.standard.isPure m)
        (preparedJob doorGraph).work = true := by cbv
  simp only [List.all_eq_true, Bool.and_eq_true, Bool.or_eq_true, Bool.not_eq_true',
    Option.any_eq_true] at hnodes
  have henv : env {} (opening doorGraph) = doorEnv := env_opening (by cbv)
  refine ⟨cls, _, f, s, blocks, w, hcls, hj, hf, hlive, hs, henv ▸ hblocks, hiff.mpr ⟨?_, ?_⟩⟩
  · intro id _ k hk n hn
    obtain ⟨m, hm, hpure⟩ := Graph.mem_prelude hs hk
    cases hn.symm.trans hm
    have hquiet := (hnodes (k, n) (Graph.mem_stored.mpr hn)).1
    rw [hpure] at hquiet
    exact hquiet.resolve_left Bool.noConfusion
  · intro id _ n hn k hk
    exact (hnodes (id, n) (Graph.mem_stored.mpr hn)).2 k hk

def pushPurelyGraph : ScriptGraph where
  name := "open"
  slots := [some (ScriptNode.entry "open"),
    some { ScriptNode.call "push" with isPure := true, order := 1 }]
  links := [⟨0, ⟨0, 0⟩, ⟨1, 0⟩, .control⟩]
  linkBound := 1
  nextOrder := 2

theorem passes_pushPurely :
    (openingJob pushPurelyGraph).passes doorEnv (opening pushPurelyGraph) = true := by cbv

/-- The call has no block, so the thread ends where the link should lead. -/
theorem pushPurely_cut :
    ∃ cls j f s blocks w, compile {} (opening pushPurelyGraph) = .ok cls ∧ cls.isSuccess = true ∧
    (precompiled {} (opening pushPurelyGraph))[0]? = some j ∧ cls.functions[0]? = some f ∧
      f.abandoned = false ∧
    j.work.schedule .standard = .ok s ∧ Build.blocks .standard doorEnv s j.work = (blocks, w) ∧
    blocks = [⟨0, [(0, .goto (.node 1))]⟩] ∧ f.body.statements = [.goto .endOfThread] ∧
      ¬ Block.Uncut blocks f.body := by
  obtain ⟨cls, f, hcls, hsuccess, hj, hf, hlive⟩ := compile_opening (by cbv) passes_pushPurely
  have hschedule : (preparedJob pushPurelyGraph).work.schedule .standard =
      .ok ⟨[0], [(0, [])]⟩ := by cbv
  have hblocks : (Build.blocks .standard doorEnv ⟨[0], [(0, [])]⟩
      (preparedJob pushPurelyGraph).work).1 = [⟨0, [(0, .goto (.node 1))]⟩] := by cbv
  obtain ⟨originOf, hbody⟩ := body_of_compile rfl rfl hcls hj hf hlive (env_opening (by cbv))
    hschedule hblocks
  refine ⟨cls, _, f, _, [⟨0, [(0, .goto (.node 1))]⟩], _, hcls, hsuccess, hj, hf, hlive, hschedule,
    Prod.ext hblocks rfl,
    rfl, ?_, fun huncut => ?_⟩
  · rw [hbody]
    exact congrArg (fun s => [s]) ((Job.patched_keepsJumps _ _).jump (.goto .endOfThread) rfl)
  · obtain ⟨offset, hoffset⟩ := huncut.linked _ List.mem_cons_self _ List.mem_cons_self 1 rfl
    rw [hbody] at hoffset
    cases hoffset

end Compiler

end VisualScript
