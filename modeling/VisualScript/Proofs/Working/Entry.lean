import VisualScript.Proofs.Expansion.Inlining
import VisualScript.Proofs.Expansion.Invariance
import VisualScript.Proofs.Graph.Closure
import VisualScript.Proofs.Working.Validation

namespace VisualScript

namespace Working

variable {w w' : Working} {e : NodeId}

/-- The graph is in order, the entry of the function stands in it, and the terms are valid. -/
structure WellFormed (w : Working) (e : NodeId) : Prop where
  tidy : w.graph.Tidy
  entry : w.entry = some e
  node : ∃ n, w.graph.node? e = some n ∧ n.kind.entrySpec?.isSome = true
  terms : w.terms.Valid

theorem WellFormed.frame (h : w.WellFormed e) (hf : w.Frame w') (hterms : w'.terms.Valid) :
    w'.WellFormed e :=
  ⟨hf.graph ▸ h.tidy, hf.entry.trans h.entry, hf.graph ▸ h.node, hterms⟩

theorem WellFormed.noted (h : w.WellFormed e) (hn : w.Noted w') :
    w'.WellFormed e := h.frame hn.toFrame (hn.terms ▸ h.terms)

theorem WellFormed.crash (h : w.WellFormed e) (crashed : Bool) : WellFormed { w with crashed } e :=
  ⟨h.tidy, h.entry, h.node, h.terms⟩

theorem WellFormed.of_nodes (h : w.WellFormed e) (htidy : w'.graph.Tidy)
    (hentry : w'.entry = w.entry) (hterms : w'.terms = w.terms)
    (hnodes : ∀ k n, w.graph.node? k = some n → ∃ n', w'.graph.node? k = some n' ∧ n'.kind = n.kind) :
    w'.WellFormed e := by
  obtain ⟨n, hn, hk⟩ := h.node
  obtain ⟨n', hn', hkind⟩ := hnodes e n hn
  exact ⟨htidy, hentry.trans h.entry, ⟨n', hn', hkind ▸ hk⟩, hterms ▸ h.terms⟩

theorem WellFormed.removeNode (h : w.WellFormed e) {id : NodeId} (hid : id ≠ e) :
    (w.removeNode id).WellFormed e := by
  obtain ⟨n, hn, hk⟩ := h.node
  have hkept : (w.graph.removeNode id).node? e = some n := by
    rw [Graph.node?_removeNode, if_neg hid.symm, hn]
  exact ⟨h.tidy.removeNode id, h.entry, ⟨n, hkept, hk⟩, h.terms⟩

theorem WellFormed.ne (h : w.WellFormed e) {id : NodeId}
    (hid : ∀ n, w.graph.node? id = some n → n.kind.entrySpec? = none) :
    id ≠ e := by
  rintro rfl
  obtain ⟨n, hn, hk⟩ := h.node
  rw [hid n hn] at hk
  cases hk

end Working

namespace Expansion

variable {site e : NodeId} {env : Env} {macros : MacroLibrary} {w w' : Working}

theorem Edit.wellFormed (h : Edit site w w') (hw : w.WellFormed e) : w'.WellFormed e := by
  refine hw.of_nodes ?_ ?_ ?_ fun k n hn => ?_
  · cases h with
    | report | inspect => exact hw.tidy
    | link a b l g h => exact hw.tidy.connect h
    | unlink p => exact hw.tidy.disconnect p
    | setDefault p value => exact hw.tidy.modifyNode _ _
    | synthesize n => exact hw.tidy.addNode n
  · cases h <;> rfl
  · cases h <;> rfl
  · cases h with
    | report | inspect => exact ⟨n, hn, rfl⟩
    | link a b l g h => exact ⟨n, (Graph.node?_congr (Graph.connect_slots h) k).trans hn, rfl⟩
    | unlink p => exact ⟨n, (Graph.node?_congr (Graph.disconnect_slots _ p) k).trans hn, rfl⟩
    | setDefault p value =>
        have ho := Graph.outline_setDefault w.graph p value k
        rw [hn] at ho
        obtain ⟨n', hn', hout⟩ := Option.map_eq_some_iff.mp ho
        exact ⟨n', hn', Node.kind_eq_of_outline hout⟩
    | synthesize m =>
        have hne : k ≠ (w.graph.addNode m).1 := fun he => by
          rw [he, hw.tidy.addNode_fresh] at hn
          cases hn
        exact ⟨n, by rw [hw.tidy.node?_addNode, if_neg hne]; exact hn, rfl⟩

theorem resolvedIn_wellFormed (hw : w.WellFormed e) (id : NodeId) (body : ScriptGraph)
    (resolved : Option PinType) :
    (resolvedIn w id body resolved).WellFormed e := by
  refine hw.of_nodes (resolvePorts_kept resolved _ (hw.tidy.merge body)).1 rfl rfl fun k n hn => ?_
  have hk : k ∉ (w.graph.merge body).1.copies := fun hk => by
    rw [hw.tidy.merge_fresh body hk] at hn
    cases hn
  have ho := outline_resolvePorts resolved (w.graph.merge body).1.copies (w.graph.merge body).2 k
  rw [hw.tidy.node?_merge body hk, hn] at ho
  obtain ⟨n', hn', hout⟩ := Option.map_eq_some_iff.mp ho
  exact ⟨n', hn', Node.kind_eq_of_outline hout⟩

theorem wellFormed_invariant (e : NodeId) : Invariant (fun w => w.WellFormed e) (· ≠ e) where
  edit := Edit.wellFormed
  enter id body resolved hw := resolvedIn_wellFormed hw id body resolved
  remove hw hk := hw.removeNode hk
  copies {w body k} hw hk := hw.ne fun m hm => by
    -- Copies stand where no node was.
    rw [hw.tidy.merge_fresh body hk] at hm
    cases hm
  expanded {w k n} hw hn hk := hw.ne fun m hm => by
    cases hn.symm.trans hm
    exact Option.not_isSome_iff_eq_none.mp
      (by simpa using (Bool.or_eq_false_iff.mp (isEntry_of_expanded hk)).1)

theorem sameFunction_invariant (w : Working) : Invariant w.SameFunction fun _ => True where
  edit h hw := IsTrans.trans _ _ _ hw (by cases h <;> exact ⟨rfl, rfl, rfl, rfl⟩)
  enter _ _ _ hw := ⟨hw.function, hw.role, hw.sourceGraph, hw.cancelled⟩
  remove hw _ := ⟨hw.function, hw.role, hw.sourceGraph, hw.cancelled⟩
  copies _ _ := trivial
  expanded _ _ _ := trivial

end Expansion

namespace Working

variable {w w' : Working} {e : NodeId} {env : Env}

theorem live_of_root {g : ScriptGraph} {policy : PrunePolicy NodeKind} (potential : Bool) {n : ScriptNode}
    (hn : g.node? e = some n) (hroot : policy.isRoot n = true) :
    (g.liveSet policy (g.roots policy potential)).contains e = true := by
  have hroots : e ∈ g.roots policy potential :=
    Graph.mem_findNodes.mpr ⟨n, hn, by rw [hroot, Bool.true_or]⟩
  have hids : e ∈ g.nodeIds := List.mem_map.mpr ⟨(e, n), Graph.mem_nodes.mpr hn, rfl⟩
  have hcontrol : e ∈ (g.liveSet policy (g.roots policy potential)).control :=
    subset_closure _ _ (Or.inr ⟨hroots, hids⟩)
  simp [LiveSet.contains, hcontrol]

theorem prune_wellFormed (r : Registry) (h : w.WellFormed e) :
    (w.prune r env (w.roots r env)).2.WellFormed e := by
  obtain ⟨n, hn, hk⟩ := h.node
  have hroot : (r.policy env.options).isRoot n = true := by
    simp [Registry.policy, Registry.isRoot, NodeKind.isEntry, hk]
  have hlive := live_of_root env.options.includePotentialRoots hn hroot
  refine (Expansion.wellFormed_invariant e).removeNodes ((h.crash _).noted (noted_warn _ _)) fun k hk => ?_
  rintro rfl
  obtain ⟨⟨k, m⟩, hdead, rfl⟩ := List.mem_map.mp hk
  have hdead := (List.mem_filter.mp hdead).2
  rw [roots] at hdead
  simp [hlive] at hdead

theorem WellFormed.next {f : Working → Working} (h : w.WellFormed e)
    (hf : w.WellFormed e → (f w).WellFormed e) : (w.next f).WellFormed e := by
  unfold Working.next
  split
  · exact h
  · exact hf h

theorem precompile_wellFormed (env : Env) (macros : MacroLibrary) (h : w.WellFormed e) :
    (w.precompile .standard env macros).WellFormed e := by
  refine h.next fun h => ?_
  have hexpand : (w.expand env macros).work.WellFormed e := (Expansion.wellFormed_invariant e).expand h
  refine hexpand.next fun h => ?_
  refine ((prune_wellFormed .standard h).noted (noted_validateGraph _ _)).next fun h => ?_
  exact h.frame (registerTerms_frame _ _ _) (registerTerms_valid _ _ h.terms)

theorem prune_sameFunction (r : Registry) (env : Env) (roots : List NodeId) (w : Working) :
    w.SameFunction (w.prune r env roots).2 := by
  have hcrash (crashed : Bool) : w.SameFunction { w with crashed } := ⟨rfl, rfl, rfl, rfl⟩
  refine (Expansion.sameFunction_invariant w).removeNodes ?_ fun _ _ => trivial
  exact IsTrans.trans _ _ _ (hcrash _) (noted_warn _ _).toSameFunction

theorem SameFunction.next {f : Working → Working} (h : w.SameFunction w') (hf : w'.SameFunction (f w')) :
    w.SameFunction (w'.next f) := by
  unfold Working.next
  split
  · exact h
  · exact IsTrans.trans _ _ _ h hf

theorem precompile_sameFunction (env : Env) (macros : MacroLibrary) (w : Working) :
    w.SameFunction (w.precompile .standard env macros) := by
  refine (Std.Refl.refl w : w.SameFunction w).next ?_
  have hexpand : w.SameFunction (w.expand env macros).work :=
    (Expansion.sameFunction_invariant w).expand (Std.Refl.refl w)
  refine hexpand.next ?_
  have hprune := prune_sameFunction .standard env ((w.expand env macros).work.roots .standard env)
    (w.expand env macros).work
  exact (IsTrans.trans _ _ _ hprune (noted_validateGraph _ _).toSameFunction).next
    (registerTerms_frame _ _ _).toSameFunction

end Working

end VisualScript
