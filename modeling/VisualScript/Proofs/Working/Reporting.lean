import VisualScript.Proofs.Graph.Slots
import VisualScript.Proofs.Term.Changes
import VisualScript.Proofs.Working.Acts

namespace VisualScript

theorem OrderedMap.isSome_insert {α β : Type} [DecidableEq α] (m : OrderedMap α β) {k k' : α} (v : β)
    (h : k' = k ∨ (m.get? k').isSome = true) : ((m.insert k v).get? k').isSome = true := by
  rw [get?_insert]
  split
  · rfl
  · next hne => exact h.resolve_left hne

namespace TermTable

/-- The slots of the class are those of events, and each is declared under its name. -/
structure Slotted (t : TermTable) : Prop extends Orderly t where
  events : ∀ {i : TermId} {a : Term}, t.get? i = some a → a.kind.isClassScope = true →
    a.kind = .persistentFrame ∧ (t.declared.get? (a.kind, a.name)).isSome = true

variable {t t' : TermTable}

theorem slotted_empty : Slotted {} := ⟨orderly_empty, fun h => absurd h.symm (Option.some_ne_none _)⟩

theorem Slotted.keeps (h : t.Slotted) (ht' : t'.Orderly)
    (hk : Keeps (fun kind name _ => kind = .persistentFrame ∧
      (t'.declared.get? (kind, name)).isSome = true) t t')
    (hd : ∀ k, (t.declared.get? k).isSome = true → (t'.declared.get? k).isSome = true) :
    t'.Slotted where
  toOrderly := ht'
  events {i b} hb hclass := by
    cases ha : t.get? i with
    | none => exact hk.new hb ha hclass
    | some a =>
        obtain ⟨b', hb', halike⟩ := hk.old ha
        cases hb.symm.trans hb'
        rw [halike.kind] at hclass
        obtain ⟨hkind, hdeclared⟩ := h.events ha hclass
        rw [halike.kind, halike.name hclass]
        exact ⟨hkind, hd _ hdeclared⟩

theorem Slotted.add (h : t.Slotted) {kind : TermKind} (hscope : kind.isClassScope = false)
    (declared : String) (type : PinType) :
    (t.add kind declared type).2.Slotted := by
  refine h.keeps (h.toOrderly.add hscope declared type) (.add t hscope declared type) fun k hk => ?_
  simp only [TermTable.add]
  unfold OrderedMap.insertIfNew
  split
  · exact hk
  · exact OrderedMap.isSome_insert _ _ (Or.inr hk)

theorem Slotted.addLocal (h : t.Slotted) (declared : String) (type : PinType) (initial : Option String) :
    (t.addLocal declared type initial).2.Slotted := by
  have ht : (t.add .local declared type).2.Slotted := h.add rfl declared type
  cases initial with
  | none => exact ht
  | some value => exact ⟨⟨ht.ids, ht.taken, ht.apart, ht.slots⟩, ht.events⟩

theorem Slotted.bind (h : t.Slotted) (p : PortRef) (id : TermId) :
    (t.bind p id).Slotted := ⟨h.toOrderly.bind p id, h.events⟩

theorem Slotted.member_ok (h : t.Slotted) (name : String) (type : PinType) :
    ∃ r, t.member .persistentFrame name type = .ok r := by
  rw [member]
  cases hd : t.declared.get? (.persistentFrame, name) with
  | some id => exact ⟨_, rfl⟩
  | none =>
      dsimp only
      split
      · exact ⟨_, rfl⟩
      · split
        · exact ⟨_, rfl⟩
        · next holder hholder =>
          split
          · next hclass =>
            obtain ⟨i, hi⟩ := List.mem_iff_getElem?.mp (List.mem_of_find?_eq_some hholder)
            have hname : holder.name = name := by simpa using List.find?_some hholder
            obtain ⟨hkind, hdeclared⟩ := h.events hi hclass
            rw [hkind, hname, hd] at hdeclared
            cases hdeclared
          · exact ⟨_, rfl⟩

theorem Slotted.member (h : t.Slotted) {name : String} {type : PinType} {r : TermId × TermTable}
    (hr : t.member .persistentFrame name type = .ok r) : r.2.Slotted := by
  have hdeclared : (r.2.declared.get? (.persistentFrame, name)).isSome = true ∧
      ∀ k, (t.declared.get? k).isSome = true → (r.2.declared.get? k).isSome = true := by
    rcases TermTable.member_cases hr with ⟨hd, he⟩ | ⟨_, u, hu, rfl⟩
    · exact ⟨by rw [he, hd]; rfl, fun k hk => he ▸ hk⟩
    · exact ⟨OrderedMap.isSome_insert _ _ (Or.inl rfl),
        fun k hk => OrderedMap.isSome_insert _ _ (Or.inr (hu.declared ▸ hk))⟩
  exact h.keeps (h.toOrderly.member hr) (.member h.toOrderly hr ⟨rfl, hdeclared.1⟩) hdeclared.2

end TermTable

def Graph.Vocal (g : ScriptGraph) (id : NodeId) : Prop := ∃ n, g.node? id = some n ∧ n.kind.isEntry = false

namespace Working

def Speaks (w w' : Working) : Prop := Acts w.graph.Vocal w w'

/-- As long as the slots of the class are those of events, handlers report nothing and keep it so. -/
def Quiets (w w' : Working) : Prop := w.terms.Slotted → Acts (fun _ => False) w w' ∧ w'.terms.Slotted

instance : Std.Refl Speaks := ⟨fun _ => .refl⟩

instance : IsTrans Working Speaks := ⟨fun _ _ _ h h' => h.trans (by rwa [Speaks, Acts.graph h] at h')⟩

instance : Std.Refl Quiets := ⟨fun _ ht => ⟨.refl, ht⟩⟩

instance : IsTrans Working Quiets := ⟨fun _ _ _ h h' ht =>
  ⟨(h ht).1.trans (h' (h ht).2).1, (h' (h ht).2).2⟩⟩

end Working

namespace Build

open Working

theorem onTerms_quiets {α : Type} {f : TermTable → α × TermTable}
    (hf : ∀ t : TermTable, t.Slotted → (f t).2.Slotted) :
    Respects Quiets (onTerms f) :=
  fun w ht => ⟨onTerms_acts f w, hf w.terms ht⟩

theorem bind_quiets (port : PortRef) (term : TermId) : Respects Quiets (bind port term) :=
  fun w ht => ⟨bind_acts port term w, ht.bind port term⟩

theorem classSlot_quiets (name : String) (type : PinType) (id : NodeId) :
    Respects Quiets (classSlot .persistentFrame name type id) := by
  intro w ht
  obtain ⟨r, hr⟩ := ht.member_ok name type
  rw [classSlot_ok hr]
  exact ⟨.single (.terms w r.2), ht.member hr⟩

end Build

namespace Handler

open Build Working

variable {env : Env} {id : NodeId} {n : ScriptNode}

theorem register_quiets {h : Handler} (hh : Registry.standard.handler? n = some h)
    (hearly : h.early = true) :
    Respects Quiets (h.register env id n) := by
  have hkind : n.kind.declares .literal = false ∧ n.kind.declares .member = false := by
    rw [handler?_standard] at hh
    cases hk : n.kind <;> rw [hk] at hh <;> cases hh <;> first | exact ⟨rfl, rfl⟩ | cases hearly
  have hadmits : AdmitsRegister Quiets id n :=
    { add _ hscope declared type := onTerms_quiets fun _ ht => ht.add hscope declared type
      addLocal _ declared type initial := onTerms_quiets fun _ ht => ht.addLocal declared type initial
      literal hk := by cases hk.symm.trans hkind.1
      slot hk hasks := by
        rcases hasks with rfl | ⟨rfl, _⟩
        · cases hk.symm.trans hkind.2
        · exact classSlot_quiets _ _ id
      bind index term := bind_quiets ⟨id, index⟩ term
      report hk := by cases hk.symm.trans hkind.2 }
  exact hadmits.register hh

end Handler

namespace Registry

open Build Working

theorem isEarly_of_isEntry {n : ScriptNode} (h : n.kind.isEntry = true) : standard.isEarly n = true := by
  rw [isEarly, Handler.handler?_standard]
  cases hk : n.kind <;> first | rfl | rw [hk] at h; cases h

theorem standard_emitNode_speaks (env : Env) (id : NodeId) :
    Respects Speaks (standard.emitNode env id) := by
  intro w
  cases hn : w.graph.node? id with
  | none =>
      simp only [emitNode, bind_apply, get_apply, hn]
      exact Std.Refl.refl w
  | some n =>
      simp only [emitNode, bind_apply, get_apply, hn]
      cases hh : standard.handler? n with
      | none => exact Std.Refl.refl w
      | some h =>
          have hvocal (hk : n.kind.isEntry = false) : w.graph.Vocal id := ⟨n, hn, hk⟩
          exact Handler.emit_acts hh hvocal w

theorem registerNode_quiets {w : Working} {id : NodeId} {n : ScriptNode} (hn : w.graph.node? id = some n)
    (hearly : standard.isEarly n = true) (env : Env) : w.Quiets (standard.registerNode env id w).2 := by
  rw [isEarly] at hearly
  simp only [registerNode, bind_apply, get_apply, hn]
  cases hh : standard.handler? n with
  | none => exact Std.Refl.refl w
  | some h =>
      rw [hh] at hearly
      exact Handler.register_quiets hh hearly w

theorem registerNode_speaks {w : Working} {id : NodeId} {n : ScriptNode} (hn : w.graph.node? id = some n)
    (hearly : standard.isEarly n = false) (env : Env) : w.Speaks (standard.registerNode env id w).2 := by
  have hvocal : w.graph.Vocal id := ⟨n, hn, Bool.eq_false_iff.mpr fun hk => by
    rw [isEarly_of_isEntry hk] at hearly
    cases hearly⟩
  simp only [registerNode, bind_apply, get_apply, hn]
  cases hh : standard.handler? n with
  | none => exact Std.Refl.refl w
  | some h => exact Handler.register_acts hh hvocal w

end Registry

namespace Working

theorem registerTerms_of_nodes {R : Working → Working → Prop} [Std.Refl R] [IsTrans Working R]
    {env : Env} {early : Bool}
    (h : ∀ {v : Working} {id : NodeId} {n : ScriptNode}, v.graph.node? id = some n →
      Registry.standard.isEarly n = early → R v (Registry.standard.registerNode env id v).2)
    (w : Working) : R w (w.registerTerms .standard env early) := by
  have hrun (nodes : List (NodeId × ScriptNode)) : ∀ v : Working,
      (∀ x ∈ nodes, v.graph.node? x.1 = some x.2) →
      R v (nodes.foldl
        (fun w n => if Registry.standard.isEarly n.2 = early then
          (Registry.standard.registerNode env n.1 w).2 else w) v) := by
    induction nodes with
    | nil => exact fun v _ => Std.Refl.refl v
    | cons x rest ih =>
        intro v hnodes
        obtain ⟨hx, hrest⟩ := List.forall_mem_cons.mp hnodes
        rw [List.foldl_cons]
        split
        · next hearly =>
          have hgraph := (Registry.standard_registerNode env x.1 v).graph
          exact IsTrans.trans _ _ _ (h hx hearly)
            (ih _ fun y hy => (congrArg (·.node? y.1) hgraph).trans (hrest y hy))
        · exact ih v hrest
  exact hrun _ w fun _ => Graph.mem_nodes.mp

theorem registerTerms_quiets (env : Env) (w : Working) : w.Quiets (w.registerTerms .standard env true) :=
  registerTerms_of_nodes (fun hn hearly => Registry.registerNode_quiets hn hearly env) w

theorem registerTerms_speaks (env : Env) (w : Working) : w.Speaks (w.registerTerms .standard env false) :=
  registerTerms_of_nodes (fun hn hearly => Registry.registerNode_speaks hn hearly env) w

end Working

namespace Build

open Working

theorem emit_speaks (env : Env) (id : NodeId) : Respects Speaks (emit .standard env id) :=
  .bind .get fun _ => .bind (Registry.standard_emitNode_speaks env id) fun _ => .pure _

theorem blocks_speaks (env : Env) (s : Schedule) : Respects Speaks (blocks .standard env s) :=
  .mapM (fun _ => .bind (.mapM (emit_speaks env) _) fun _ => .pure _) _

end Build

end VisualScript
