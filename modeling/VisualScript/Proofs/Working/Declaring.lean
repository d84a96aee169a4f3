import VisualScript.Proofs.Term.Declarations
import VisualScript.Proofs.Working.Binding

namespace VisualScript

/-- The names and types of the declarations of a kind. -/
def Declaration.ofKind (roll : List Declaration) (kind : TermKind) : List (String × PinType) :=
  (roll.filter fun d => d.1 = kind).map Prod.snd

theorem Declaration.ofKind_append (roll new : List Declaration) (kind : TermKind) :
    ofKind (roll ++ new) kind = ofKind roll kind ++ ofKind new kind := by
  rw [ofKind, List.filter_append, List.map_append]
  rfl

theorem Declaration.ofKind_of_ne {new : List Declaration} {kind : TermKind}
    (h : ∀ d ∈ new, d.1 ≠ kind) : ofKind new kind = [] := by
  rw [ofKind, List.filter_eq_nil_iff.mpr fun d hd => by simpa using h d hd]
  rfl

namespace TermTable

def declares (t : TermTable) (kind : TermKind) : List (String × PinType) := Declaration.ofKind t.roll kind

variable {t : TermTable} {kind : TermKind}

theorem map_ofKind (t : TermTable) (kind : TermKind) :
    (t.ofKind kind).map (fun a => (a.declared, a.type)) = t.declares kind := by
  rw [declares, Declaration.ofKind, roll, List.filter_map, List.map_map]
  rfl

theorem mem_declares {d : String × PinType} : d ∈ t.declares kind ↔ (kind, d) ∈ t.roll := by
  simp [declares, Declaration.ofKind]

theorem Indexed.find?_isSome (ht : t.Indexed) (hk : kind ≠ .literal) {name : String} :
    (t.find? kind name).isSome = true ↔ name ∈ (t.declares kind).map Prod.fst := by
  rw [ht.isSome_find? hk, List.mem_map]
  constructor
  · rintro ⟨type, hd⟩
    exact ⟨(name, type), mem_declares.mpr hd, rfl⟩
  · rintro ⟨⟨name, type⟩, hd, rfl⟩
    exact ⟨type, mem_declares.mp hd⟩

theorem Indexed.find?_eq_none (h : t.Indexed) {kind : TermKind} (hk : kind ≠ .literal) {name : String} :
    t.find? kind name = none ↔ name ∉ (t.declares kind).map Prod.fst := by
  rw [← h.find?_isSome hk, Bool.not_eq_true, Option.isSome_eq_false_iff, Option.isNone_iff_eq_none]

end TermTable

namespace Working

def Silent (kind : TermKind) (w w' : Working) : Prop := w'.terms.declares kind = w.terms.declares kind

variable {kind : TermKind} {w w' : Working}

instance : Std.Refl (Silent kind) := ⟨fun _ => rfl⟩

instance : IsTrans Working (Silent kind) := ⟨fun _ _ _ h h' => Eq.trans h' h⟩

theorem silent_of_roll {new : List Declaration} (h : w'.terms.roll = w.terms.roll ++ new)
    (hnew : ∀ d ∈ new, d.1 ≠ kind) :
    Silent kind w w' := by
  rw [Silent, TermTable.declares, h, Declaration.ofKind_append, Declaration.ofKind_of_ne hnew,
    List.append_nil]
  rfl

theorem silent_of_snoc {d : Declaration} (h : w'.terms.roll = w.terms.roll ++ [d])
    (hd : d.1 ≠ kind) : Silent kind w w' :=
  silent_of_roll h (List.forall_mem_singleton.mpr hd)

end Working

namespace Build

open Working

variable {kind : TermKind}

theorem add_silent {other : TermKind} (h : other ≠ kind) (declared : String) (type : PinType) :
    Respects (Silent kind) (onTerms fun t => t.add other declared type) :=
  fun w => silent_of_snoc (w.terms.roll_add other declared type) h

theorem addLocal_silent (h : .local ≠ kind) (declared : String) (type : PinType)
    (initial : Option String) :
    Respects (Silent kind) (onTerms fun t => t.addLocal declared type initial) :=
  fun w => silent_of_snoc (w.terms.roll_addLocal declared type initial) h

theorem literal_silent (h : .literal ≠ kind) (type : PinType) (value : String) :
    Respects (Silent kind) (literal type value) := by
  intro w
  obtain ⟨declared, hroll⟩ := w.terms.roll_addLiteral type value
  exact silent_of_snoc hroll h

theorem classSlot_silent {other : TermKind} (h : other ≠ kind) (name : String) (type : PinType)
    (node : NodeId) :
    Respects (Silent kind) (classSlot other name type node) := by
  intro w
  cases hm : w.terms.member other name type with
  | ok r =>
      rw [classSlot_ok hm]
      rcases TermTable.roll_member hm with he | hroll
      · rw [he]
        exact Std.Refl.refl w
      · exact silent_of_snoc hroll h
  | error clash =>
      rw [classSlot_error hm]
      exact add_silent h name type _

end Build

namespace Handler

open Build Working

theorem admitsRegister_silent {kind : TermKind} {n : ScriptNode}
    (hkind : n.kind.declares kind = false) (id : NodeId) :
    AdmitsRegister (Silent kind) id n := by
  have hne {other : TermKind} (h : n.kind.declares other = true) : other ≠ kind := by
    rintro rfl
    rw [hkind] at h
    cases h
  exact
    { add h _ := add_silent (hne h)
      addLocal h := addLocal_silent (hne h)
      literal h := literal_silent (hne h)
      slot h _ := classSlot_silent (hne h) _ _ id
      bind _ _ _ := rfl
      report _ _ _ := rfl }

end Handler

def ScriptNode.brings (n : ScriptNode) (kind : TermKind) : List (String × PinType) :=
  match n.kind, kind with
  | .functionEntry _, .parameter => (n.portsWhere .data .output).map fun p => (p.2.name, p.2.type)
  | .functionEntry spec, .local => spec.locals.map fun l => (l.name, l.type)
  | _, _ => []

namespace Handler

open Build Working

variable {env : Env} {id : NodeId} {n : ScriptNode} {spec : EntrySpec}

theorem roll_forM {α : Type} {f : α → Build PUnit} {g : α → Declaration}
    (hf : ∀ a w, (f a w).2.terms.roll = w.terms.roll ++ [g a]) (l : List α) (w : Working) :
    (l.forM f w).2.terms.roll = w.terms.roll ++ l.map g := by
  induction l generalizing w with
  | nil => exact (List.append_nil _).symm
  | cons a rest ih =>
      have hrun : (a :: rest).forM f w = rest.forM f (f a w).2 := rfl
      rw [hrun, ih, hf, List.append_assoc]
      rfl

theorem roll_functionEntry (hk : n.kind = .functionEntry spec) (w : Working) :
    (functionEntry.register env id n w).2.terms.roll = w.terms.roll ++
      (n.portsWhere .data .output).map (fun p => (.parameter, p.2.name, p.2.type)) ++
        spec.locals.map fun l => (.local, l.name, l.type) := by
  simp only [functionEntry, hk, bind_apply]
  rw [roll_forM (g := fun l : LocalDecl => (TermKind.local, l.name, l.type)),
    roll_forM (g := fun p : UInt16 × Port => (TermKind.parameter, p.2.name, p.2.type))]
  · exact fun p w => w.terms.roll_add .parameter p.2.name p.2.type
  · exact fun l w => w.terms.roll_addLocal l.name l.type l.default

theorem functionEntry_brings (hk : n.kind = .functionEntry spec) (w : Working) (kind : TermKind) :
    (functionEntry.register env id n w).2.terms.declares kind =
      w.terms.declares kind ++ n.brings kind := by
  have hof {α : Type} (other : TermKind) (f : α → String × PinType) (l : List α) :
      Declaration.ofKind (l.map fun a => (other, f a)) kind = if other = kind then l.map f else [] := by
    by_cases h : other = kind <;> simp [Declaration.ofKind, List.filter_map, Function.comp_def, h]
  rw [TermTable.declares, roll_functionEntry hk, Declaration.ofKind_append,
    Declaration.ofKind_append, hof, hof,
    TermTable.declares, List.append_assoc]
  cases kind <;> simp [ScriptNode.brings, hk]

end Handler

namespace Working

variable {w : Working} {env : Env} {kind : TermKind}

theorem registerNode_silent {id : NodeId} {n : ScriptNode} (hn : w.graph.node? id = some n)
    (h : n.kind.declares kind = false) :
    Silent kind w (Registry.standard.registerNode env id w).2 := by
  cases hh : Registry.standard.handler? n with
  | none =>
      simp only [Registry.registerNode, Build.bind_apply, Build.get_apply, hn, hh]
      exact Std.Refl.refl w
  | some handler =>
      rw [registerNode_eq hn hh]
      exact (Handler.admitsRegister_silent h id).register hh w

theorem isEarly_eq (n : ScriptNode) : Registry.standard.isEarly n =
    (n.kind.tag = .functionEntry || n.kind.tag = .functionResult || n.kind.tag = .event) := by
  rw [Registry.isEarly, Handler.handler?_standard]
  cases n.kind <;> rfl

theorem registerNode_brings (hkind : kind = .parameter ∨ kind = .local) {id : NodeId} {n : ScriptNode}
    (hn : w.graph.node? id = some n) (hearly : Registry.standard.isEarly n = true) :
    (Registry.standard.registerNode env id w).2.terms.declares kind =
      w.terms.declares kind ++ n.brings kind := by
  have hsilent (h : n.kind.declares kind = false) (hbrings : n.brings kind = []) :
      (Registry.standard.registerNode env id w).2.terms.declares kind =
        w.terms.declares kind ++ n.brings kind := by
    rw [registerNode_silent hn h, hbrings, List.append_nil]
  cases hk : n.kind with
  | functionEntry spec =>
      rw [registerNode_eq hn (by rw [Handler.handler?_standard, hk])]
      exact Handler.functionEntry_brings hk w kind
  | functionResult | event =>
      refine hsilent ?_ ?_
      · rcases hkind with rfl | rfl <;> rw [hk] <;> rfl
      · simp [ScriptNode.brings, hk]
  | _ => simp [isEarly_eq, hk, NodeKind.tag] at hearly

theorem registerNodes_brings (hkind : kind = .parameter ∨ kind = .local)
    {nodes : List (NodeId × ScriptNode)} (h : ∀ x ∈ nodes, w.graph.node? x.1 = some x.2) :
    (registerNodes env true nodes w).terms.declares kind = w.terms.declares kind ++
      nodes.flatMap fun x => x.2.brings kind := by
  induction nodes generalizing w with
  | nil => exact (List.append_nil _).symm
  | cons x rest ih =>
      obtain ⟨hx, hrest⟩ := List.forall_mem_cons.mp h
      rw [registerNodes, List.foldl_cons, List.flatMap_cons, ← List.append_assoc]
      split
      · next hearly =>
          have hstep := Registry.standard_registerNode env x.1 w
          have hbrings : (Registry.standard.registerNode env x.1 w).2.terms.declares kind = _ :=
            registerNode_brings hkind hx hearly
          rw [← hbrings]
          exact ih fun y hy => hstep.graph ▸ hrest y hy
      · next hlate =>
          have hbrings : x.2.brings kind = [] := by
            cases hk : x.2.kind with
            | functionEntry spec => simp [isEarly_eq, hk, NodeKind.tag] at hlate
            | _ => simp [ScriptNode.brings, hk]
          rw [hbrings, List.append_nil]
          exact ih hrest

/-- Of all nodes, the one function entry declares the parameters and the first locals. -/
theorem registerTerms_brings (hkind : kind = .parameter ∨ kind = .local) {e : NodeId} {n : ScriptNode}
    (hn : w.graph.node? e = some n) (hone : (w.graph.findNodes fun n => n.kind.entrySpec?.isSome) = [e]) :
    (w.registerTerms .standard env true).terms.declares kind = w.terms.declares kind ++ n.brings kind := by
  have hentries : w.graph.nodes.filter (fun x => x.2.kind.entrySpec?.isSome) = [(e, n)] := by
    obtain ⟨x, hx, rfl⟩ := List.map_eq_singleton_iff.mp hone
    have hmem := Graph.mem_nodes.mp (List.mem_filter.mp (hx ▸ List.mem_singleton_self x)).1
    cases hn.symm.trans hmem
    exact hx
  have hflat (nodes : List (NodeId × ScriptNode)) :
      nodes.flatMap (fun x => x.2.brings kind) =
        (nodes.filter fun x => x.2.kind.entrySpec?.isSome).flatMap fun x => x.2.brings kind := by
    induction nodes with
    | nil => rfl
    | cons x rest ih =>
        rw [List.flatMap_cons, List.filter_cons, ih]
        split
        · rw [List.flatMap_cons]
        · next hx =>
            have hbrings : x.2.brings kind = [] := by
              cases hk : x.2.kind <;> simp [ScriptNode.brings, hk, NodeKind.entrySpec?] at hx ⊢
            rw [hbrings]
            rfl
  rw [registerTerms, registerNodes_brings hkind fun x hx => Graph.mem_nodes.mp hx, hflat, hentries,
    List.flatMap_singleton]

theorem registerNodes_silent {early : Bool} {nodes : List (NodeId × ScriptNode)}
    (h : ∀ x ∈ nodes, w.graph.node? x.1 = some x.2)
    (hkind : ∀ x ∈ nodes, Registry.standard.isEarly x.2 = early → x.2.kind.declares kind = false) :
    Silent kind w (registerNodes env early nodes w) := by
  induction nodes generalizing w with
  | nil => exact Std.Refl.refl w
  | cons x rest ih =>
      obtain ⟨hx, hrest⟩ := List.forall_mem_cons.mp h
      obtain ⟨hxkind, hrestkind⟩ := List.forall_mem_cons.mp hkind
      rw [registerNodes, List.foldl_cons]
      split
      · next hearly =>
          have hstep := Registry.standard_registerNode env x.1 w
          exact IsTrans.trans _ _ _ (registerNode_silent hx (hxkind hearly))
            (ih (fun y hy => hstep.graph ▸ hrest y hy) hrestkind)
      · exact ih hrest hrestkind

theorem registerTerms_silent (hkind : kind = .parameter ∨ kind = .output) (env : Env) (w : Working) :
    Silent kind w (w.registerTerms .standard env false) := by
  refine registerNodes_silent (fun x hx => Graph.mem_nodes.mp hx) fun x _ hlate => ?_
  rw [isEarly_eq] at hlate
  rcases hkind with rfl | rfl <;> cases hk : x.2.kind <;> simp_all [NodeKind.declares, NodeKind.tag]

end Working

end VisualScript
