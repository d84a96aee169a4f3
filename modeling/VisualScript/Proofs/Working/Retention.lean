import VisualScript.Proofs.Working.Entry

namespace VisualScript

namespace Graph

variable {plain : NodeKind → Bool} {g₀ g g' : ScriptGraph}

/-- A graph that came out of `g₀` and still has the nodes of certain kinds. Types and defaults of ports
may have changed. -/
structure Retains (plain : NodeKind → Bool) (g₀ g : ScriptGraph) : Prop where
  tidy : g.Tidy
  kept : ∀ {k : NodeId} {n₀ : ScriptNode}, g₀.node? k = some n₀ → plain n₀.kind = true →
    ∃ n, g.node? k = some n ∧ n.outline = n₀.outline

theorem Retains.refl (plain : NodeKind → Bool) (h : g.Tidy) :
    g.Retains plain g := ⟨h, fun hn _ => ⟨_, hn, rfl⟩⟩

theorem Retains.of_outline (h : g₀.Retains plain g) (htidy : g'.Tidy) (hsame : g'.SameOutline g) :
    g₀.Retains plain g' := by
  refine ⟨htidy, fun hn₀ hk => ?_⟩
  obtain ⟨n, hn, hout⟩ := h.kept hn₀ hk
  obtain ⟨n', hn', hout'⟩ := hsame.node? hn
  exact ⟨n', hn', hout'.trans hout⟩

theorem Retains.addNode (h : g₀.Retains plain g) (n : ScriptNode) : g₀.Retains plain (g.addNode n).2 := by
  refine ⟨h.tidy.addNode n, fun {k n₀} hn₀ hk => ?_⟩
  obtain ⟨m, hm, hout⟩ := h.kept hn₀ hk
  have hne : k ≠ (g.addNode n).1 := by
    rintro rfl
    rw [h.tidy.addNode_fresh] at hm
    cases hm
  exact ⟨m, by rw [h.tidy.node?_addNode, if_neg hne]; exact hm, hout⟩

theorem Retains.not_copy (h : g₀.Retains plain g) (other : ScriptGraph) {k : NodeId} {n₀ : ScriptNode}
    (hn₀ : g₀.node? k = some n₀) (hk : plain n₀.kind = true) : k ∉ (g.merge other).1.copies := by
  intro hcopy
  obtain ⟨n, hn, _⟩ := h.kept hn₀ hk
  rw [h.tidy.merge_fresh other hcopy] at hn
  cases hn

theorem Retains.merge (h : g₀.Retains plain g) (other : ScriptGraph) :
    g₀.Retains plain (g.merge other).2 := by
  refine ⟨h.tidy.merge other, fun hn₀ hk => ?_⟩
  obtain ⟨n, hn, hout⟩ := h.kept hn₀ hk
  exact ⟨n, (h.tidy.node?_merge other (h.not_copy other hn₀ hk)).trans hn, hout⟩

theorem Retains.removeNode (h : g₀.Retains plain g) {k : NodeId}
    (hk : ∀ n₀, g₀.node? k = some n₀ → plain n₀.kind = false) :
    g₀.Retains plain (g.removeNode k) := by
  refine ⟨h.tidy.removeNode k, fun {i n₀} hn₀ hplain => ?_⟩
  have hne : i ≠ k := by
    rintro rfl
    rw [hk n₀ hn₀] at hplain
    cases hplain
  obtain ⟨n, hn, hout⟩ := h.kept hn₀ hplain
  exact ⟨n, by rw [node?_removeNode, if_neg hne]; exact hn, hout⟩

theorem Retains.not_plain (h : g₀.Retains plain g) {k : NodeId} {n : ScriptNode}
    (hn : g.node? k = some n) (hk : plain n.kind = false) (n₀ : ScriptNode)
    (hn₀ : g₀.node? k = some n₀) : plain n₀.kind = false := by
  by_contra hplain
  obtain ⟨n', hn', hout⟩ := h.kept hn₀ (Bool.not_eq_false _ ▸ hplain)
  cases hn.symm.trans hn'
  exact hplain (Node.kind_eq_of_outline hout ▸ hk)

end Graph

def NodeKind.isPlain (k : NodeKind) : Bool := !k.isInstance && !k.isTunnel

namespace Expansion

theorem retains_invariant (g₀ : ScriptGraph) :
    Invariant (fun w => g₀.Retains NodeKind.isPlain w.graph) fun k => ∀ n₀, g₀.node? k = some n₀ →
      n₀.kind.isPlain = false where
  edit {site w w'} h hw := by
    cases h with
    | report | inspect => exact hw
    | link a b l g h => exact hw.of_outline (hw.tidy.connect h) (.ofSlots (Graph.connect_slots h))
    | unlink p => exact hw.of_outline (hw.tidy.disconnect p) (.ofSlots (Graph.disconnect_slots _ p))
    | setDefault p value =>
        exact hw.of_outline (hw.tidy.modifyNode _ _) (w.graph.outline_setDefault p value)
    | synthesize n => exact hw.addNode n
  enter {w} id body resolved hw := by
    have hmerged := hw.merge body
    exact hmerged.of_outline (resolvePorts_kept resolved _ hmerged.tidy).1
      (outline_resolvePorts resolved _ _)
  remove hw hk := hw.removeNode hk
  copies {w body k} hw hk n₀ hn₀ := Bool.eq_false_iff.mpr fun hplain => hw.not_copy body hn₀ hplain hk
  expanded hw hn hk := hw.not_plain hn (by rcases hk with hk | hk <;> simp [NodeKind.isPlain, hk])

end Expansion

namespace Working

variable {w : Working} {env : Env} {macros : MacroLibrary}

theorem node?_removeNodes {ids : List NodeId} {k : NodeId} {n : ScriptNode}
    (h : (Expansion.removeNodes w ids).graph.node? k = some n) : w.graph.node? k = some n := by
  induction ids generalizing w with
  | nil => exact h
  | cons id rest ih =>
      have hrest : (w.removeNode id).graph.node? k = some n := ih h
      rw [Working.removeNode, Graph.node?_removeNode] at hrest
      exact (Option.ite_none_left_eq_some.mp hrest).2

theorem pruned_retains (h : w.graph.Tidy) {k : NodeId} {n₀ n : ScriptNode}
    (hn₀ : w.graph.node? k = some n₀) (hplain : n₀.kind.isPlain = true)
    (hn : (w.pruned .standard env macros).graph.node? k = some n) : n.outline = n₀.outline := by
  have hexpand : w.graph.Retains NodeKind.isPlain (w.expand env macros).work.graph :=
    (Expansion.retains_invariant w.graph).expand (.refl _ h)
  obtain ⟨m, hm, hout⟩ := hexpand.kept hn₀ hplain
  rw [pruned] at hn
  have hn := node?_removeNodes hn
  rw [(noted_warn _ _).graph] at hn
  cases hn.symm.trans hm
  exact hout

end Working

end VisualScript
