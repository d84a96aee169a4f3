import VisualScript.Proofs.Expansion.Termination

namespace VisualScript.Expansion

variable {env : Env} {macros : MacroLibrary}

/-- What expansion keeps up: every edit does, and so do copying a body in and removing a node that may
be dropped. Those are the copies of a body and the nodes that are expanded. -/
structure Invariant (P : Working → Prop) (drops : NodeId → Prop) : Prop where
  edit : ∀ {site : NodeId} {w w' : Working}, Edit site w w' → P w → P w'
  enter : ∀ {w : Working} (id : NodeId) (body : ScriptGraph) (resolved : Option PinType), P w →
    P (resolvedIn w id body resolved)
  remove : ∀ {w : Working} {k : NodeId}, P w → drops k → P (w.removeNode k)
  copies : ∀ {w : Working} {body : ScriptGraph} {k : NodeId}, P w →
    k ∈ (w.graph.merge body).1.copies → drops k
  expanded : ∀ {w : Working} {k : NodeId} {n : ScriptNode}, P w → w.graph.node? k = some n →
    n.kind.isInstance = true ∨ n.kind.isTunnel = true → drops k

theorem isEntry_of_expanded {k : NodeKind} (h : k.isInstance = true ∨ k.isTunnel = true) :
    k.isEntry = false := by
  cases k <;> first | rfl | simp [NodeKind.isInstance, NodeKind.isTunnel] at h

theorem isInstance_of_body {k : NodeKind} {b : ScriptGraph × Option PinType}
    (h : body? macros k = some b) :
    k.isInstance = true := by
  cases k <;> first | rfl | cases h

namespace Invariant

variable {P : Working → Prop} {drops : NodeId → Prop} {w w' : Working}

variable (h : Invariant P drops)
include h

theorem edits {site : NodeId} (he : Edits site w w') (hw : P w) : P w' := by
  induction he with
  | refl => exact hw
  | tail _ he ih => exact h.edit he ih

theorem report (hw : P w) (issue : Issue) (node : Option NodeId) (port : Option UInt16) :
    P (w.report issue node port) :=
  h.edit (Edit.report w issue node port : Edit 0 w _) hw

theorem removeNodes (hw : P w) {ids : List NodeId} (hids : ∀ k ∈ ids, drops k) :
    P (Expansion.removeNodes w ids) := by
  induction ids generalizing w with
  | nil => exact hw
  | cons id rest ih =>
      obtain ⟨hid, hrest⟩ := List.forall_mem_cons.mp hids
      exact ih (h.remove hw hid) hrest

theorem inline {x : Expansion} (hx : P x.work) {id : NodeId} (hid : drops id) (n : ScriptNode)
    (body : ScriptGraph) (resolved : Option PinType) : P (inline env x id n body resolved).work := by
  rcases inline_cases env x id n body resolved with ⟨_, _, he⟩ | ⟨_, _, he⟩ | ⟨_, w, ids, hids, hw, he, _⟩
  · rw [he]
    exact h.report hx _ _ _
  · rw [he]
    exact h.report (h.enter id body none hx) _ _ _
  · rw [he]
    refine h.removeNodes (h.edits hw (h.enter id body resolved hx)) fun k hk => ?_
    rcases List.mem_append.mp hk with hk | hk
    · exact h.copies hx (hids k hk)
    · cases List.mem_singleton.mp hk
      exact hid

theorem expandInstance {x : Expansion} (hx : P x.work) (id : NodeId) :
    P (expandInstance env macros x id).work := by
  cases hh : x.halted with
  | true => rwa [expandInstance_halted x id hh]
  | false =>
      have hdrops {n : ScriptNode} (hn : x.work.graph.node? id = some n)
        (hi : n.kind.isInstance = true) : drops id :=
        h.expanded hx hn (Or.inl hi)
      rcases expandInstance_cases x id hh with
        ⟨he, _⟩ | ⟨n, issue, hn, hi, he⟩ | ⟨n, body, resolved, hn, hb, he⟩
      · rwa [he]
      · rw [he]
        exact h.remove (h.report hx issue (some id) none) (hdrops hn hi)
      · rw [he]
        exact h.inline hx (hdrops hn (isInstance_of_body hb)) n body resolved

theorem collapseTunnel {x : Expansion} (hx : P x.work) {id : NodeId} (hid : drops id) :
    P (collapseTunnel env x id).work := by
  cases hn : x.work.graph.node? id with
  | none =>
      have he : Expansion.collapseTunnel env x id = x := by simp [Expansion.collapseTunnel, hn]
      rwa [he]
  | some n =>
      obtain ⟨w, hw, he, _⟩ := collapseTunnel_cases env hn
      rw [he]
      exact h.remove (h.edits hw hx) hid

theorem rounds (fuel : Nat) {x : Expansion} (hx : P x.work) : P (rounds env macros fuel x).work := by
  induction fuel generalizing x with
  | zero => exact hx
  | succ fuel ih =>
      rw [Expansion.rounds]
      split
      · exact hx
      · refine ih ?_
        rw [round]
        split
        · refine List.foldlRecOn (motive := fun x : Expansion => P x.work) _ _ hx fun y hy id hid =>
            h.collapseTunnel hy ?_
          obtain ⟨n, hn, ht⟩ := Graph.mem_findNodes.mp hid
          exact h.expanded hx hn (Or.inr ht)
        · exact List.foldlRecOn (motive := fun x : Expansion => P x.work) _ _ hx fun y hy id _ =>
            h.expandInstance hy id

theorem expand (hw : P w) : P (w.expand env macros).work := h.rounds _ hw

end Invariant

end VisualScript.Expansion
