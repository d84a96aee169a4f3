import VisualScript.Proofs.Class.Parameters
import VisualScript.Proofs.Compile.Signatures

namespace VisualScript

namespace TermTable

variable {t : TermTable}

theorem nodup_key_signature (t : TermTable) (name : String) (flags : Flags) :
    ((t.signature name flags).params.map Param.key).Nodup ↔
      ((t.declares .parameter).map Prod.fst).Nodup ∧ ((t.declares .output).map Prod.fst).Nodup := by
  have hkeys (l : List (String × PinType)) (direction : ParamDirection) :
      ((l.map fun d => (⟨d.1, d.2, direction⟩ : Param)).map Param.key).Nodup ↔ (l.map Prod.fst).Nodup := by
    have hmap : (l.map fun d => (⟨d.1, d.2, direction⟩ : Param)).map Param.key =
        (l.map Prod.fst).map (Prod.mk direction) := by
      rw [List.map_map, List.map_map]
      rfl
    rw [hmap, List.nodup_map_iff fun _ _ h => (Prod.mk.inj h).2]
  rw [signature_eq, List.map_append, List.nodup_append, hkeys, hkeys]
  refine and_congr_right fun _ => and_iff_left ?_
  intro a ha b hb he
  simp only [List.mem_map] at ha hb
  obtain ⟨_, ⟨_, _, rfl⟩, rfl⟩ := ha
  obtain ⟨_, ⟨_, _, rfl⟩, rfl⟩ := hb
  cases (Prod.mk.inj he).1

theorem nodup_name_signature (t : TermTable) (name : String) (flags : Flags) :
    ((t.signature name flags).params.map Param.name).Nodup ↔ ((t.declares .parameter).map Prod.fst).Nodup ∧
      ((t.declares .output).map Prod.fst).Nodup ∧ ∀ d ∈ t.declares .parameter,
      d.1 ∉ (t.declares .output).map Prod.fst := by
  have hnames (l : List (String × PinType)) (direction : ParamDirection) :
      (l.map fun d => (⟨d.1, d.2, direction⟩ : Param)).map Param.name = l.map Prod.fst := by
    rw [List.map_map]
    rfl
  rw [signature_eq, List.map_append, List.nodup_append, hnames, hnames]
  refine and_congr_right fun _ => and_congr_right fun _ => ?_
  rw [List.forall_mem_map]
  exact ⟨fun h d hd hout => h d hd _ hout rfl, fun h d hd b hb he => h d hd (he ▸ hb)⟩

end TermTable

namespace Compiler

variable {c : Compiler} {u : CompilationUnit} {cls : CompiledClass} {i : Nat} {j : Job}
    {f : CompiledFunction}

/-- The parameter slots of a function match its signature just if no two inputs that its entry declares
have the same name and, where it overrides another, no output has the name of an input and the
signature has no name twice. -/
theorem compile_slots_iff (hreg : c.registry = .standard) (hmode : c.options.mode = .full)
    (h : c.compile u = .ok cls) (hj : (c.precompiled u)[i]? = some j)
    (hf : cls.functions[i]? = some f) (hlive : f.abandoned = false) :
    ∃ e n, j.work.entry = some e ∧ j.work.graph.node? e = some n ∧ n.kind.entrySpec?.isSome = true ∧
      (SymbolTable.Matches j.work.terms f.symbols f.signature ↔
        ((n.portsWhere .data .output).map fun p => p.2.name).Nodup ∧
          (f.overrideOf ≠ none →
            (∀ p ∈ n.portsWhere .data .output, j.work.terms.find? .output p.2.name = none) ∧
            f.signature.paramNames.Nodup)) := by
  obtain ⟨_, hsymbols, _⟩ := function_of_compile hreg hmode h hj hf hlive
  obtain ⟨hsignature, hoverride⟩ := signature_of_compile hreg hmode h hj hf
  obtain ⟨j₀, hj₀, _, rfl, hv⟩ := prepared_of_compile hreg hmode h hj hf hlive
  have hinitial := Job.ofUnit_initial hj₀
  obtain ⟨e, n₀, n, spec, hk, hout, hentry, hn, hinputs, _⟩ := Job.entry_prepared hinitial hv
  obtain ⟨⟨_, hwell⟩, _⟩ := precompiled_live hreg (List.mem_of_getElem? hj) hv
  have hindexed := Job.indexed_prepared hinitial hv
  refine ⟨e, n, hentry, hn, by rw [Node.kind_eq_of_outline hout, hk]; rfl, ?_⟩
  have hnames : ((j₀.prepared (c.env u) u).work.terms.declares .parameter).map Prod.fst =
      (n.portsWhere .data .output).map fun p => p.2.name := by
    have hports := congrArg (List.map Prod.snd) (Node.portNames_eq_of_outline hout .data .output)
    rw [List.map_map, List.map_map] at hports
    rw [Job.declares_prepared hv (Or.inl rfl), hinputs]
    simp only [ScriptNode.brings, hk, List.map_map]
    exact hports.symm
  have hapart : (∀ d ∈ (j₀.prepared (c.env u) u).work.terms.declares .parameter,
      d.1 ∉ ((j₀.prepared (c.env u) u).work.terms.declares .output).map Prod.fst) ↔
      ∀ p ∈ n.portsWhere .data .output,
      (j₀.prepared (c.env u) u).work.terms.find? .output p.2.name = none := by
    simp only [← hindexed.find?_eq_none (by decide : TermKind.output ≠ .literal)]
    rw [← List.forall_mem_map (f := Prod.fst)
      (P := fun name => (j₀.prepared (c.env u) u).work.terms.find? .output name = none), hnames,
      List.forall_mem_map]
  obtain ⟨declared, hdeclared, hcases⟩ := Job.signature_prepared hv
  rw [hsymbols, hsignature, hoverride, SymbolTable.matches_iff hwell.terms hindexed "" {}]
  rcases hcases with ⟨hnot, hparams⟩ | ⟨parent, hover, hissues, hparams⟩
  · rw [hparams, hdeclared "" {}, TermTable.nodup_key_signature, hnames]
    simp [hnot, Job.nodup_outputs hinitial hv]
  · have hall : declared.paramNames.Nodup ↔ _ := hdeclared "" {} ▸ TermTable.nodup_name_signature _ "" {}
    rw [hparams, ← hdeclared "" {}, SignatureMatch.reordered_perm_iff hissues, hall, hnames, hapart,
      Signature.paramNames, hparams]
    simp [hover, Job.nodup_outputs hinitial hv, and_assoc]

def swingGraph : ScriptGraph where
  name := "open"
  slots :=
    [some ((ScriptNode.entry "open").addPorts [.dataOut "by" ⟨.int, .single⟩,
      .dataOut "hard" ⟨.bool, .single⟩]),
      some { ScriptNode.result.addPorts [.dataIn "by" ⟨.int, .single⟩] with order := 1 }]
  links := [⟨1, ⟨0, 1⟩, ⟨1, 1⟩, .data⟩, ⟨0, ⟨0, 0⟩, ⟨1, 0⟩, .control⟩]
  linkBound := 2
  nextOrder := 2

theorem passes_swing : (openingJob swingGraph).passes doorEnv (opening swingGraph) = true := by cbv

theorem swing_slots :
    ∃ cls j f, compile {} (opening swingGraph) = .ok cls ∧
      (precompiled {} (opening swingGraph))[0]? = some j ∧
    cls.functions[0]? = some f ∧ f.abandoned = false ∧ f.signature.params =
      [⟨"by", ⟨.int, .single⟩, .input⟩,
      ⟨"hard", ⟨.bool, .single⟩, .input⟩, ⟨"by", ⟨.int, .single⟩, .output⟩] ∧
    SymbolTable.Matches j.work.terms f.symbols f.signature := by
  obtain ⟨cls, f, hcls, _, hj, hf, hlive⟩ := compile_opening (by cbv) passes_swing
  obtain ⟨hsignature, hoverride⟩ := signature_of_compile rfl rfl hcls hj hf
  obtain ⟨e, n, he, hn, _, hiff⟩ := compile_slots_iff rfl rfl hcls hj hf hlive
  have hentry : (preparedJob swingGraph).work.entry = some 0 := by cbv
  obtain rfl := Option.some.inj (he.symm.trans hentry)
  have hports : ((preparedJob swingGraph).work.graph.node? 0).map
      (fun n => (n.portsWhere .data .output).map fun p => p.2.name) = some ["by", "hard"] := by cbv
  rw [hn] at hports
  have hports : (n.portsWhere .data .output).map (fun p => p.2.name) = ["by", "hard"] :=
    Option.some.inj hports
  have hnone : (preparedJob swingGraph).overrideOf = none := by cbv
  refine ⟨cls, _, f, hcls, hj, hf, hlive, ?_,
    hiff.mpr ⟨?_, fun hover => absurd (hoverride.trans hnone) hover⟩⟩
  · rw [hsignature]
    cbv
  · rw [hports]
    decide

def swingTwiceGraph : ScriptGraph where
  name := "open"
  slots := [some ((ScriptNode.entry "open").addPorts [.dataOut "by" ⟨.int, .single⟩,
    .dataOut "by" ⟨.string, .single⟩])]
  nextOrder := 1

theorem passes_swingTwice :
    (openingJob swingTwiceGraph).passes doorEnv (opening swingTwiceGraph) = true := by cbv

/-- Both are found as the first one, so a function of two parameters has three slots. -/
theorem swingTwice_mismatched :
    ∃ cls j f, compile {} (opening swingTwiceGraph) = .ok cls ∧ cls.isSuccess = true ∧
    (precompiled {} (opening swingTwiceGraph))[0]? = some j ∧ cls.functions[0]? = some f ∧
      f.abandoned = false ∧
    f.signature.params = [⟨"by", ⟨.int, .single⟩, .input⟩, ⟨"by", ⟨.string, .single⟩, .input⟩] ∧
    f.symbols.parameters = [0, 0, 1] ∧ ¬ SymbolTable.Matches j.work.terms f.symbols f.signature := by
  obtain ⟨cls, f, hcls, hsuccess, hj, hf, hlive⟩ := compile_opening (by cbv) passes_swingTwice
  obtain ⟨_, hsymbols, _⟩ := function_of_compile rfl rfl hcls hj hf hlive
  have hparameters : f.symbols.parameters = [0, 0, 1] := by
    rw [hsymbols, SymbolTable.parameters_ofTerms]
    cbv
  refine ⟨cls, _, f, hcls, hsuccess, hj, hf, hlive, ?_, hparameters, fun hmatches => ?_⟩
  · rw [(signature_of_compile rfl rfl hcls hj hf).1]
    cbv
  · have hnodup := hmatches.nodup
    rw [hparameters] at hnodup
    exact absurd hnodup (by decide)

end Compiler

end VisualScript
