import VisualScript.Proofs.Compile.ControlFlow
import VisualScript.Proofs.Signature.Override
import VisualScript.Proofs.Working.Results

namespace VisualScript

theorem TermTable.signature_eq (t : TermTable) (name : String) (flags : Flags) :
    (t.signature name flags).params = (t.declares .parameter).map (fun d => ⟨d.1, d.2, .input⟩) ++
      (t.declares .output).map fun d => ⟨d.1, d.2, .output⟩ := by
  rw [← t.map_ofKind .parameter, ← t.map_ofKind .output, List.map_map, List.map_map]
  rfl

namespace Job

variable {env : Env} {u : CompilationUnit} {j : Job} {kind : TermKind}

abbrev opened (env : Env) (j : Job) : Working := j.work.validateEntries.registerTerms .standard env true

theorem validateEntries_terms (hj : j.Initial) : j.work.validateEntries.terms = {} :=
  (Working.noted_validateEntries j.work).terms.trans hj.terms

theorem orderly_initial (hj : j.Initial) : j.work.terms.Orderly := hj.terms ▸ TermTable.orderly_empty

/-- A function when its graph is expanded and checked, and the other terms are not yet registered. -/
abbrev checked (env : Env) (u : CompilationUnit) (j : Job) : Working :=
  ((j.registerSignature .standard env u).work.pruned .standard env u.macros).validateGraph .standard

theorem checked_terms (env : Env) (u : CompilationUnit) (j : Job) :
    (j.checked env u).terms = (j.opened env).terms := by
  rw [(Working.noted_validateGraph .standard _).terms, (Working.pruned_kept _ env u.macros).1,
    (registerSignature_noted env u j).terms]

theorem prepared_work (hv : (j.prepared env u).work.hasErrors = false) :
    (j.prepared env u).work = (j.checked env u).registerTerms .standard env false :=
  (Working.precompile_of_valid hv).2.2

theorem checked_graph (hv : (j.prepared env u).work.hasErrors = false) :
    (j.checked env u).graph = (j.prepared env u).work.graph := by
  rw [prepared_work hv, (Working.registerTerms_registers env false (j.checked env u)).graph]

section Prepared

variable (hj : j.Initial) (hv : (j.prepared env u).work.hasErrors = false)

include hj hv

theorem opened_valid : (j.opened env).hasErrors = false := (precompile_registers hv (orderly_initial hj)).1

theorem indexed_opened : (j.opened env).terms.Indexed := by
  have hregisters := (Working.registerTerms_registers env true j.work.validateEntries).terms
    (opened_valid hj hv)
  exact TermTable.Changes.indexed hregisters (validateEntries_terms hj ▸ TermTable.indexed_empty)

theorem indexed_prepared : (j.prepared env u).work.terms.Indexed := by
  obtain ⟨_, _, _, hchanges⟩ := precompile_registers hv (orderly_initial hj)
  exact TermTable.Changes.indexed hchanges (indexed_opened hj hv)

omit hj in
theorem declares_prepared (hkind : kind = .parameter ∨ kind = .output) :
    (j.prepared env u).work.terms.declares kind = (j.opened env).terms.declares kind := by
  rw [prepared_work hv, Working.registerTerms_silent hkind env (j.checked env u), checked_terms]

omit hj in
theorem signature_prepared : ∃ declared : Signature,
    (∀ name flags, declared.params = ((j.prepared env u).work.terms.signature name flags).params) ∧
    (((j.prepared env u).overrideOf = none ∧ (j.prepared env u).signature.params = declared.params) ∨
      ∃ parent, (j.prepared env u).overrideOf ≠ none ∧ SignatureMatch.paramIssues declared parent = [] ∧
        (j.prepared env u).signature.params = SignatureMatch.reordered declared parent) := by
  refine ⟨(j.opened env).terms.signature (j.opened env).function (declaredFlags (j.opened env)),
    fun name flags => ?_, ?_⟩
  · rw [TermTable.signature_eq, TermTable.signature_eq, declares_prepared hv (Or.inl rfl),
      declares_prepared hv (Or.inr rfl)]
  · refine SignatureMatch.resolve_cases (List.any_eq_false.mpr fun issue hissue => Bool.eq_false_iff.mp ?_)
    obtain ⟨v, _, hnoted⟩ := Working.Noted.mem_foldl
      (fun w issue => w.noted_report issue w.entry none) hissue (j.opened env)
    exact Working.no_error_of_report hnoted (Working.precompile_of_valid hv).1

theorem outline_prepared {k : NodeId} {n₀ n : ScriptNode} (hn₀ : j.work.graph.node? k = some n₀)
    (hplain : n₀.kind.isPlain = true) (hn : (j.prepared env u).work.graph.node? k = some n) :
    n.outline = n₀.outline := by
  obtain ⟨_, _, hgraph, _⟩ := precompile_registers hv (orderly_initial hj)
  have hstart : (j.registerSignature .standard env u).work.graph = j.work.graph :=
    (registerSignature_frame env u j).graph.trans (Working.noted_validateEntries j.work).graph
  have hn' : (j.pruned env u).node? k = some n := hgraph ▸ hn
  exact Working.pruned_retains (hstart ▸ hj.tidy) (hstart ▸ hn₀) hplain hn'

theorem net?_opened {id : NodeId} {n : ScriptNode}
    (hn : (j.prepared env u).work.graph.node? id = some n)
    (hnew : ∀ n₀, j.work.graph.node? id = some n₀ → Registry.standard.isEarly n₀ = true → n₀.kind ≠ n.kind)
    (index : UInt16) :
    (j.opened env).terms.net? ⟨id, index⟩ = none := by
  have hregisters := (Working.registerTerms_registers env true j.work.validateEntries).terms
    (opened_valid hj hv)
  have hempty : j.work.validateEntries.terms = {} := validateEntries_terms hj
  rw [TermTable.Changes.net? hregisters (hempty ▸ TermTable.orderly_empty), hempty]
  · rfl
  · rintro ⟨n₀, hn₀, hearly⟩
    rw [(Working.noted_validateEntries j.work).graph] at hn₀
    -- What is registered with the signature is never expanded.
    have hplain : n₀.kind.isPlain = true := by
      rw [Working.isEarly_eq] at hearly
      cases hk₀ : n₀.kind <;> rw [hk₀] at hearly <;> first | rfl | cases hearly
    exact hnew n₀ hn₀ hearly (Node.kind_eq_of_outline (outline_prepared hj hv hn₀ hplain hn)).symm

/-- The entry of a function is still there, and it has declared the parameters and the first locals. -/
theorem entry_prepared : ∃ (e : NodeId) (n₀ n : ScriptNode) (spec : EntrySpec),
    n₀.kind = .functionEntry spec ∧ n.outline = n₀.outline ∧
    (j.prepared env u).work.entry = some e ∧ (j.prepared env u).work.graph.node? e = some n ∧
    (j.opened env).terms.declares .parameter = n₀.brings .parameter ∧
      (j.opened env).terms.declares .local = n₀.brings .local := by
  have hframe := registerSignature_frame env u j
  have hregistered := (Working.precompile_of_valid hv).1
  have hentries := hframe.hasErrors hregistered
  obtain ⟨e, he⟩ := hj.wellFormed hentries
  obtain ⟨n₀, hn₀, hspec⟩ := he.node
  obtain ⟨spec, hspec⟩ := Option.isSome_iff_exists.mp hspec
  have hk : n₀.kind = .functionEntry spec := by
    cases hk : n₀.kind with
    | functionEntry s => rw [hk] at hspec; cases hspec; rfl
    | _ => rw [hk] at hspec; cases hspec
  have hnoted := Working.noted_validateEntries j.work
  have hwell := Working.precompile_wellFormed env u.macros
    ((he.noted hnoted).frame hframe (registerSignature_valid env u he.terms))
  obtain ⟨n, hn, _⟩ := hwell.node
  have hout : n.outline = n₀.outline := outline_prepared hj hv hn₀ (by rw [hk]; rfl) hn
  obtain ⟨e', hone⟩ := Working.entry_of_valid hentries
  have hmem : e ∈ j.work.graph.findNodes fun n => n.kind.entrySpec?.isSome :=
    Graph.mem_findNodes.mpr ⟨n₀, hn₀, by rw [hspec]; rfl⟩
  cases List.mem_singleton.mp (hone ▸ hmem)
  have hbrings (kind : TermKind) (hkind : kind = .parameter ∨ kind = .local) :
      (j.opened env).terms.declares kind = ScriptNode.brings n₀ kind := by
    rw [Working.registerTerms_brings hkind (hnoted.graph ▸ hn₀) (hnoted.graph ▸ hone),
      validateEntries_terms hj]
    rfl
  exact ⟨e, n₀, n, spec, hk, hout, hwell.entry, hn, hbrings _ (Or.inl rfl), hbrings _ (Or.inr rfl)⟩

theorem nodup_outputs : (((j.prepared env u).work.terms.declares .output).map Prod.fst).Nodup := by
  rw [declares_prepared hv (Or.inr rfl)]
  refine Working.registerTerms_outputs ?_ ?_ (opened_valid hj hv)
  · exact validateEntries_terms hj ▸ TermTable.indexed_empty
  · exact validateEntries_terms hj ▸ List.nodup_nil

end Prepared

end Job

namespace Compiler

variable {c : Compiler} {u : CompilationUnit} {cls : CompiledClass} {i : Nat} {j : Job}
    {f : CompiledFunction}

theorem prepared_of_compile (hreg : c.registry = .standard) (hmode : c.options.mode = .full)
    (h : c.compile u = .ok cls) (hj : (c.precompiled u)[i]? = some j)
    (hf : cls.functions[i]? = some f) (hlive : f.abandoned = false) :
    ∃ j₀ ∈ Job.ofUnit u (c.env u).schema, (c.registered u)[i]? =
      some (j₀.registerSignature .standard (c.env u) u) ∧
      j = j₀.prepared (c.env u) u ∧ (j₀.prepared (c.env u) u).work.hasErrors = false := by
  obtain ⟨hlive', _⟩ := function_of_compile hreg hmode h hj hf hlive
  rw [precompiled_eq hreg, List.getElem?_map] at hj
  obtain ⟨j₀, hj₀, rfl⟩ := Option.map_eq_some_iff.mp hj
  refine ⟨j₀, List.mem_of_getElem? hj₀, ?_, rfl, hlive'⟩
  rw [registered, List.getElem?_map, hj₀, hreg]
  rfl

theorem signature_of_compile (hreg : c.registry = .standard) (hmode : c.options.mode = .full)
    (h : c.compile u = .ok cls) (hj : (c.precompiled u)[i]? = some j)
    (hf : cls.functions[i]? = some f) :
    f.signature = j.signature ∧ f.overrideOf = j.overrideOf := by
  have hbuilt : (c.built u)[i]? = some (j.compileBody c.registry (c.env u)) := by
    rw [built, List.getElem?_map, hj, Option.map_some]
  rw [functions_of_compile hmode h, List.getElem?_map, Job.patchAll_getElem?, hbuilt] at hf
  cases hf
  rw [hreg]
  exact ⟨(Job.compileBody_same (c.env u) j).signature, (Job.compileBody_same (c.env u) j).overrideOf⟩

end Compiler

end VisualScript
