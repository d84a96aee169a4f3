import VisualScript.Proofs.Graph.Tidy

namespace VisualScript.Graph

variable {κ : Type} {g₀ g g' : Graph κ}

/-- What edits made of a graph: it is torn only if it was before, and no order key is given back. -/
structure Endures (g₀ g : Graph κ) : Prop where
  tidy : g.Tidy
  torn : g.torn = g₀.torn
  nextOrder : g₀.nextOrder ≤ g.nextOrder

namespace Endures

theorem refl (h : g.Tidy) : g.Endures g := ⟨h, rfl, Nat.le_refl _⟩

theorem trans (h : g₀.Endures g) (h' : g.Endures g') : g₀.Endures g' :=
  ⟨h'.tidy, h'.torn.trans h.torn, Nat.le_trans h.nextOrder h'.nextOrder⟩

variable (h : g₀.Endures g)
include h

theorem rewire (htidy : g'.Tidy) (hg' : g.Rewired g') : g₀.Endures g' :=
  ⟨htidy, hg'.torn.trans h.torn, hg'.nextOrder ▸ h.nextOrder⟩

theorem connect {a b : PortRef} {l : LinkId} (hc : g.connect a b = .ok (l, g')) : g₀.Endures g' :=
  h.rewire (h.tidy.connect hc) (rewired_connect hc)

theorem disconnect (p : PortRef) : g₀.Endures (g.disconnect p) :=
  h.rewire (h.tidy.disconnect p) (g.rewired_disconnect p)

theorem modifyNode (id : NodeId) (f : Node κ → Node κ) : g₀.Endures (g.modifyNode id f) :=
  ⟨h.tidy.modifyNode id f, h.torn, h.nextOrder⟩

theorem addNode (n : Node κ) : g₀.Endures (g.addNode n).2 := by
  have htorn : (g.addNode n).2.torn = g.torn := by
    change (g.place { n with order := g.freshOrder }).2.torn = g.torn
    rw [Graph.place, h.tidy.unthreaded]
    cases g.vacant <;> rfl
  have hfresh : g.nextOrder ≤ g.freshOrder := by
    rw [freshOrder]
    split <;> omega
  exact ⟨h.tidy.addNode n, htorn.trans h.torn, Nat.le_succ_of_le (Nat.le_trans h.nextOrder hfresh)⟩

theorem copyNodes (l : List (NodeId × Node κ)) : g₀.Endures (g.copyNodes l).2 := by
  induction l generalizing g with
  | nil => exact h
  | cons p rest ih => exact ih (h.addNode p.2)

theorem merge (other : Graph κ) : g₀.Endures (g.merge other).2 :=
  (h.copyNodes other.nodes).rewire (h.tidy.merge other) (rewired_copyLinkList ..)

theorem removeNode (id : NodeId) : g₀.Endures (g.removeNode id) := by
  have hsame : (g.removeNode id).torn = g.torn ∧ (g.removeNode id).nextOrder = g.nextOrder := by
    rw [Graph.removeNode, h.tidy.unthreaded]
    split <;> exact ⟨rfl, rfl⟩
  exact ⟨h.tidy.removeNode id, hsame.1.trans h.torn, hsame.2 ▸ h.nextOrder⟩

theorem exhausted (hg₀ : g₀.exhausted = true) : g.exhausted = true :=
  decide_eq_true (Nat.le_trans (of_decide_eq_true hg₀) h.nextOrder)

theorem ruined_eq (hwhole : g₀.torn = false) : g.ruined = g.exhausted := by
  rw [ruined, h.torn, hwhole, Bool.or_false]

end Endures

end VisualScript.Graph
