import VisualScript.Proofs.Expansion.Inlining
import VisualScript.Proofs.Expansion.Invariance
import VisualScript.Proofs.Working.Tracing

namespace VisualScript

/-- What comes of a node with origin `o` when it is expanded, one call deeper: copies of the nodes of its
body, and nodes that are made on the way. -/
structure Origin.Brings (o : Origin) (body : ScriptGraph) (o' : Origin) : Prop where
  callSites : o'.callSites = o.callSites ++ [o.source]
  source : (∃ s n, body.node? s = some n ∧ o'.source = ⟨body.name, s⟩ ∧ o'.synthesized = false) ∨
    o'.source = o.source ∧ o'.synthesized = true

/-- Origins that were recorded stay, and those that are recorded anew have a property. -/
structure Provenance.Extends (new : Origin → Prop) (p p' : Provenance) : Prop where
  kept : ∀ {k : NodeId} {o : Origin}, p.get? k = some o → p'.get? k = some o
  added : ∀ {k : NodeId} {o : Origin}, p'.get? k = some o → p.get? k = some o ∨ p.get? k = none ∧ new o

namespace Provenance.Extends

variable {new new' : Origin → Prop} {p p' p'' : Provenance}

theorem refl (p : Provenance) : p.Extends new p := ⟨id, Or.inl⟩

theorem trans (h : p.Extends new p') (h' : p'.Extends new p'') : p.Extends new p'' where
  kept ho := h'.kept (h.kept ho)
  added {k o} ho := by
    rcases h'.added ho with ho | ⟨hk, hnew⟩
    · exact h.added ho
    · refine Or.inr ⟨?_, hnew⟩
      cases hp : p.get? k with
      | none => rfl
      | some o' => rw [h.kept hp] at hk; cases hk

theorem mono (h : p.Extends new p') (hmono : ∀ o, new o → new' o) : p.Extends new' p' :=
  ⟨h.kept, fun ho => (h.added ho).imp id (And.imp id (hmono _))⟩

theorem of_cases
    (h : ∀ k, p'.get? k = p.get? k ∨ p.get? k = none ∧ ∃ o, p'.get? k = some o ∧ new o) :
    p.Extends new p' where
  kept {k o} ho := by
    rcases h k with he | ⟨hk, -⟩
    · exact he.trans ho
    · rw [hk] at ho; cases ho
  added {k o} ho := by
    rcases h k with he | ⟨hk, o', ho', hnew⟩
    · exact Or.inl (he.symm.trans ho)
    · cases ho'.symm.trans ho
      exact Or.inr ⟨hk, hnew⟩

end Provenance.Extends

namespace Expansion

open Working

variable {site : NodeId} {w w' : Working} {o : Origin} {env : Env} {macros : MacroLibrary}

theorem Edit.accounted (h : Edit site w w') (hw : w.Accounted) : w'.Accounted := by
  cases h with
  | report | inspect => exact ⟨hw.tidy, hw.live⟩
  | link a b l g h => exact hw.relink (.ofSlots (Graph.connect_slots h)) (hw.tidy.connect h)
  | unlink p => exact hw.relink (.ofSlots (Graph.disconnect_slots _ p)) (hw.tidy.disconnect p)
  | setDefault p value =>
      exact hw.relink (Graph.outline_setDefault w.graph p value) (hw.tidy.modifyNode _ _)
  | synthesize n => exact hw.addNode n _

theorem Edit.extends (h : Edit site w w') (hw : w.Accounted) (ho : w.provenance.get? site = some o) :
    w.provenance.Extends (· = o.through o.source true) w'.provenance := by
  cases h with
  | report | inspect | link | unlink | setDefault => exact .refl _
  | synthesize n =>
      refine .of_cases fun k => ?_
      rw [Provenance.get?_recordSynthesized _ ho]
      split
      · next hk => exact Or.inr ⟨hk ▸ hw.get?_of_vacant (hw.tidy.addNode_fresh n), _, rfl, rfl⟩
      · exact Or.inl rfl

theorem Edits.extends (h : Edits site w w') (hw : w.Accounted) (ho : w.provenance.get? site = some o) :
    w'.Accounted ∧ w.provenance.Extends (· = o.through o.source true) w'.provenance := by
  induction h with
  | refl => exact ⟨hw, .refl _⟩
  | tail _ h ih => exact ⟨h.accounted ih.1, ih.2.trans (h.extends ih.1 (ih.2.kept ho))⟩

theorem mergedIn_extends (hw : w.Accounted) {id : NodeId} (ho : w.provenance.get? id = some o)
    (body : ScriptGraph) :
    w.provenance.Extends (o.Brings body) (mergedIn w id body).provenance := by
  refine .of_cases fun k => ?_
  rcases Provenance.get?_recordExpansion w.provenance ho (w.graph.merge body).1 body.name k with
    ⟨-, he⟩ | ⟨s, hs, he⟩
  · exact Or.inl he
  · obtain ⟨n, _, hn, -⟩ := hw.tidy.mem_merge hs
    have hk : k ∈ (w.graph.merge body).1.copies := List.mem_map_of_mem hs
    exact Or.inr ⟨hw.get?_of_vacant (hw.tidy.merge_fresh body hk), _, he, rfl, Or.inl ⟨s, n, hn, rfl, rfl⟩⟩

theorem resolvedIn_accounted (hw : w.Accounted) {id : NodeId} (ho : w.provenance.get? id = some o)
    (body : ScriptGraph) (resolved : Option PinType) :
    (resolvedIn w id body resolved).Accounted := by
  have hmerged : (mergedIn w id body).Accounted := by
    refine hw.merge fun k => ?_
    exact (Provenance.get?_recordExpansion w.provenance ho _ _ k).imp_right
      (Exists.imp fun _ hk => ⟨_, hk⟩)
  exact hmerged.relink (outline_resolvePorts _ _ _) (resolvePorts_kept resolved _ hmerged.tidy).1

theorem get?_removeNodes {ids : List NodeId} {k : NodeId}
    (h : (removeNodes w ids).provenance.get? k = some o) :
    w.provenance.get? k = some o := by
  induction ids generalizing w with
  | nil => exact h
  | cons id rest ih =>
      have hk : (w.provenance.forget id).get? k = some o := ih h
      rw [Provenance.get?_forget] at hk
      split at hk
      · cases hk
      · exact hk

theorem inline_brings {x : Expansion} (hw : x.work.Accounted) {id k : NodeId}
    (ho : x.work.provenance.get? id = some o) (n : ScriptNode) (body : ScriptGraph)
    (resolved : Option PinType) {o' : Origin}
    (hk : (inline env x id n body resolved).work.provenance.get? k = some o') :
    x.work.provenance.get? k = some o' ∨ x.work.provenance.get? k = none ∧ o.Brings body o' := by
  have hmerged := mergedIn_extends hw ho body
  rcases inline_cases env x id n body resolved with ⟨_, -, hi⟩ | ⟨_, _, hi⟩ | ⟨-, w, ids, -, hedits, hi, -⟩
  · rw [hi] at hk
    exact Or.inl hk
  · rw [hi] at hk
    exact hmerged.added hk
  · rw [hi] at hk
    -- What is made while the body is connected is attributed as the site itself, one call deeper.
    have hedited := (hedits.extends (resolvedIn_accounted hw ho body resolved) (hmerged.kept ho)).2
    have hall := hmerged.trans (hedited.mono fun _ he => he ▸ ⟨rfl, Or.inr ⟨rfl, rfl⟩⟩)
    exact hall.added (get?_removeNodes hk)

/-- Where the nodes came from that are there once an instance is expanded. -/
theorem expandInstance_brings {x : Expansion} (hw : x.work.Accounted) {id : NodeId} {n : ScriptNode}
    (hn : x.work.graph.node? id = some n) : ∃ o, x.work.provenance.get? id = some o ∧
      ∀ {k : NodeId} {o' : Origin}, (expandInstance env macros x id).work.provenance.get? k = some o' →
        x.work.provenance.get? k = some o' ∨ x.work.provenance.get? k = none ∧
          ∃ body resolved, body? macros n.kind = some (body, resolved) ∧ o.Brings body o' := by
  obtain ⟨o, ho⟩ := hw.origin hn
  refine ⟨o, ho, fun {k o'} hk => ?_⟩
  cases hh : x.halted with
  | true =>
      rw [expandInstance_halted x id hh] at hk
      exact Or.inl hk
  | false =>
      rcases expandInstance_cases x id hh with
        ⟨he, -⟩ | ⟨m, issue, hm, -, he⟩ | ⟨m, body, resolved, hm, hb, he⟩
      · rw [he] at hk
        exact Or.inl hk
      · rw [he] at hk
        have hremoved : (removeNodes (x.work.report issue (some id)) [id]).provenance.get? k =
            some o' := hk
        have hkept : (x.work.report issue (some id)).provenance.get? k = some o' :=
          get?_removeNodes hremoved
        exact Or.inl hkept
      · cases hn.symm.trans hm
        rw [he] at hk
        exact (inline_brings hw ho n body resolved hk).imp_right
          (And.imp_right fun hnew => ⟨body, resolved, hb, hnew⟩)

theorem rewireAll_provenance (w : Working) (sources sinks : List PortRef) :
    (rewireAll w sources sinks).provenance = w.provenance := by
  have hrewire (w : Working) (p q : PortRef) : (rewire w p q).provenance = w.provenance := by
    rw [rewire]
    split <;> rfl
  refine List.foldlRecOn (motive := fun v : Working => v.provenance = w.provenance) sources _ rfl
    fun v hv p _ => ?_
  exact List.foldlRecOn (motive := fun v : Working => v.provenance = w.provenance) sinks _ hv
    fun v hv q _ => (hrewire v p q).trans hv

theorem splice_provenance (x : Expansion) (up down : PortRef) (id : NodeId) :
    (splice env x up down none id).work.provenance = x.work.provenance := by
  rw [splice]
  cases x.work.graph.port? up with
  | none => rfl
  | some port =>
      simp only
      split
      · cases port.default <;> rfl
      · unfold wire
        cases port.role <;> exact rewireAll_provenance _ _ _

theorem collapseTunnel_keeps {x : Expansion} {id k : NodeId}
    (h : (collapseTunnel env x id).work.provenance.get? k = some o) :
    x.work.provenance.get? k = some o := by
  have hpass (n : ScriptNode) (x : Expansion) (p : UInt16 × Port) :
      (passPort env id n x p).work.provenance = x.work.provenance := by
    unfold passPort
    extract_lets here
    split
    · split
      · exact splice_provenance x _ _ id
      · rfl
    · split <;> rfl
  rw [collapseTunnel] at h
  split at h
  · exact h
  · next n _ =>
    have hfold := List.foldlRecOn (motive := fun y : Expansion => y.work.provenance =
      x.work.provenance) n.indexed
      (passPort env id n) rfl fun y hy p _ => (hpass n y p).trans hy
    have hremoved : (removeNodes (n.indexed.foldl (passPort env id n) x).work [id]).provenance.get?
        k = some o := h
    rw [← hfold]
    exact get?_removeNodes hremoved

/-- What a step of the loop does to the origins. A node that was there keeps its own, and a node that is
new came with the expansion of an instance. -/
def Loop.Attributes (macros : MacroLibrary) (a b : Loop) : Prop :=
  ∀ {k : NodeId} {o' : Origin}, b.state.work.provenance.get? k = some o' →
    a.state.work.provenance.get? k = some o' ∨
    a.state.work.provenance.get? k = none ∧ ∃ id rest n o body resolved, a.tasks = .expand id :: rest ∧
      a.state.work.graph.node? id = some n ∧ body? macros n.kind = some (body, resolved) ∧
      a.state.work.provenance.get? id = some o ∧ o.Brings body o'

theorem Loop.Step.attributes {a b : Loop} (hs : Loop.Step env macros a b)
    (h : a.state.work.Accounted) : a.Attributes macros b := by
  cases hs with
  | round => exact Or.inl
  | perform x task rest =>
      intro k o' ho'
      cases task with
      | collapse id => exact Or.inl (collapseTunnel_keeps ho')
      | expand id =>
          cases hn : x.work.graph.node? id with
          | none =>
              have he : expandInstance env macros x id = x := by simp [expandInstance, hn]
              rw [Task.perform, he] at ho'
              exact Or.inl ho'
          | some n =>
              obtain ⟨o, ho, hbrings⟩ := @expandInstance_brings env macros x h id n hn
              refine (hbrings ho').imp_right (And.imp_right ?_)
              rintro ⟨body, resolved, hb, hnew⟩
              exact ⟨id, rest, n, o, body, resolved, rfl, hn, hb, ho, hnew⟩

end Expansion

end VisualScript
