import VisualScript.Proofs.Working.Handlers
import VisualScript.Working.Phases

namespace VisualScript

namespace Build

variable {α β : Type} {given : List TermId} {ids : α → List TermId} {x : Build α}

/-- Keeps the terms of a function valid. Given ids of terms, it gives ids of terms. -/
def Sound (given : List TermId) (ids : α → List TermId) (x : Build α) : Prop :=
  ∀ w : Working, w.terms.Valid → (∀ t ∈ given, t < w.terms.terms.length) →
    (x w).2.terms.Valid ∧ w.terms.terms.length ≤ (x w).2.terms.terms.length ∧
      ∀ t ∈ ids (x w).1, t < (x w).2.terms.terms.length

theorem Sound.pure {a : α} (h : ∀ t ∈ ids a, t ∈ given) : Sound given ids (Pure.pure a : Build α) :=
  fun _ hw hgiven => ⟨hw, Nat.le_refl _, fun t ht => hgiven t (h t ht)⟩

theorem Sound.bind {more : β → List TermId} {f : α → Build β} (hx : Sound given ids x)
    (hf : ∀ a, Sound (ids a ++ given) more (f a)) : Sound given more (x >>= f) := by
  intro w hw hgiven
  obtain ⟨hvalid, hle, hids⟩ := hx w hw hgiven
  have hboth : ∀ t ∈ ids (x w).1 ++ given, t < (x w).2.terms.terms.length := by
    intro t ht
    rcases List.mem_append.mp ht with ht | ht
    · exact hids t ht
    · exact Nat.lt_of_lt_of_le (hgiven t ht) hle
  obtain ⟨hvalid', hle', hmore⟩ := hf (x w).1 (x w).2 hvalid hboth
  exact ⟨hvalid', Nat.le_trans hle hle', hmore⟩

theorem Sound.read {f : Working → Build α}
    (hf : ∀ w, w.terms.Valid → ∃ found, (∀ t ∈ found, t < w.terms.terms.length) ∧
      Sound (found ++ given) ids (f w)) :
    Sound given ids (get >>= f) := by
  intro w hw hgiven
  obtain ⟨found, hfound, hsound⟩ := hf w hw
  exact hsound w hw (List.forall_mem_append.mpr ⟨hfound, hgiven⟩)

theorem Sound.skip {ids : α → List TermId} {a : α} (h : ids a = []) :
    Sound given ids (Pure.pure a : Build α) :=
  .pure (h ▸ List.forall_mem_nil _)

theorem Sound.get {f : Working → Build α} (hf : ∀ w, Sound given ids (f w)) :
    Sound given ids (MonadState.get >>= f) :=
  fun w => hf w w

theorem Sound.forM {f : α → Build PUnit} (hf : ∀ a, Sound given (fun _ => []) (f a)) (l : List α) :
    Sound given (fun _ => []) (l.forM f) := by
  induction l with
  | nil => exact .skip rfl
  | cons a l ih => exact .bind (hf a) fun _ => ih

theorem onTerms_sound {f : TermTable → TermId × TermTable}
    (hf : ∀ t : TermTable, t.Valid → t.Gives (f t)) :
    Sound given (fun id => [id]) (onTerms f) := by
  intro w hw _
  have hgives := hf w.terms hw
  exact ⟨hgives.valid, hgives.length_le, List.forall_mem_singleton.mpr hgives.lt⟩

theorem bind_sound (port : PortRef) {term : TermId} (h : term ∈ given) :
    Sound given (fun _ => []) (bind port term) :=
  fun _ hw hgiven => ⟨hw.bind port (hgiven term h), Nat.le_refl _, List.forall_mem_nil _⟩

theorem report_sound (issue : Issue) (node : Option NodeId) (port : Option UInt16) :
    Sound given (fun _ => []) (report issue node port) :=
  fun _ hw _ => ⟨hw, Nat.le_refl _, List.forall_mem_nil _⟩

theorem literal_sound (type : PinType) (value : String) :
    Sound given (fun id => [id]) (literal type value) :=
  onTerms_sound fun _ ht => ht.gives_addLiteral type value

theorem classSlot_sound (kind : TermKind) (name : String) (type : PinType) (node : NodeId) :
    Sound given (fun id => [id]) (classSlot kind name type node) := by
  intro w hw hgiven
  cases hm : w.terms.member kind name type with
  | ok r =>
      rw [classSlot_ok hm]
      have hgives := hw.gives_member hm
      exact ⟨hgives.valid, hgives.length_le, List.forall_mem_singleton.mpr hgives.lt⟩
  | error clash =>
      rw [classSlot_error hm]
      exact onTerms_sound (fun _ ht => ht.gives_add kind name type) _ hw hgiven

theorem variableTerm?_sound (env : Env) (name : String) (node : NodeId) :
    Sound given Option.toList (variableTerm? env name node) := by
  refine .read fun w hw => ?_
  cases hl : w.terms.find? .local name with
  | some id =>
      exact ⟨[id], List.forall_mem_singleton.mpr (hw.declared hl),
        .pure fun t ht => List.mem_append_left _ ht⟩
  | none =>
      refine ⟨[], List.forall_mem_nil _, ?_⟩
      cases env.schema.member? name with
      | some m =>
          exact .bind (classSlot_sound _ _ _ _) fun id => .pure fun t ht =>
            List.mem_append_left _ ht
      | none => exact .skip rfl

theorem outputLocals_sound (id : NodeId) (n : ScriptNode) :
    Sound given (fun _ => []) (outputLocals id n) := by
  refine .forM (fun p => .get fun w => ?_) _
  split
  · exact .skip rfl
  · exact .bind (onTerms_sound fun _ ht => ht.gives_add _ _ _) fun _ => bind_sound _ List.mem_cons_self

end Build

namespace Handler

open Build

theorem variableOf_sound (env : Env) (name : String) (id : NodeId) (n : ScriptNode) :
    Sound [] Option.toList (variableOf env name id n) := by
  refine .bind (variableTerm?_sound env name id) fun found => ?_
  cases found with
  | some term => exact .pure fun t ht => List.mem_append_left _ ht
  | none => exact .bind (report_sound _ _ _) fun _ => .skip rfl

def RegistersSoundly (h : Handler) : Prop := ∀ env id n, Sound [] (fun _ => []) (h.register env id n)

theorem functionEntry_sound : functionEntry.RegistersSoundly := by
  intro env id n
  refine .bind (.forM (fun p => ?_) _) fun _ => ?_
  · exact .bind (onTerms_sound fun _ ht => ht.gives_add _ _ _) fun _ => bind_sound _ List.mem_cons_self
  · split
    · exact .forM (fun l => .bind (onTerms_sound fun _ ht => ht.gives_addLocal _ _ _) fun _ => .skip rfl) _
    · exact .skip rfl

theorem functionResult_sound : functionResult.RegistersSoundly := by
  intro env id n
  refine .forM (fun p => .read fun w hw => ?_) _
  cases hf : w.terms.find? .output p.2.name with
  | some term =>
      exact ⟨[term], List.forall_mem_singleton.mpr (hw.declared hf),
        bind_sound _ List.mem_cons_self⟩
  | none =>
      refine ⟨[], List.forall_mem_nil _, ?_⟩
      exact .bind (onTerms_sound fun _ ht => ht.gives_add _ _ _) fun _ => bind_sound _ List.mem_cons_self

theorem event_sound : event.RegistersSoundly := by
  intro env id n
  simp only [event]
  split
  · exact .forM (fun p => .bind (classSlot_sound _ _ _ _) fun _ => bind_sound _ List.mem_cons_self) _
  · exact .skip rfl

theorem variableGet_sound : variableGet.RegistersSoundly := by
  intro env id n
  simp only [variableGet]
  split
  · refine .bind (variableOf_sound _ _ _ _) fun found => ?_
    cases found with
    | some term => exact .forM (fun p => bind_sound _ List.mem_cons_self) _
    | none => exact .skip rfl
  · exact .skip rfl

theorem variableSet_sound : variableSet.RegistersSoundly := by
  intro env id n
  simp only [variableSet]
  split
  · refine .bind (variableOf_sound _ _ _ _) fun found => ?_
    split
    · exact bind_sound _ List.mem_cons_self
    · exact .skip rfl
  · exact .skip rfl

theorem literalNode_sound : literalNode.RegistersSoundly := by
  intro env id n
  exact .forM (fun _ => .bind (literal_sound _ _) fun _ => bind_sound _ List.mem_cons_self) _

theorem noTerms_sound (env : Env) (id : NodeId) (n : ScriptNode) :
    Sound [] (fun _ => []) (noTerms env id n) := .skip rfl

theorem standard_sound {n : ScriptNode} {h : Handler} (hh : Registry.standard.handler? n = some h) :
    h.RegistersSoundly := by
  rw [handler?_standard] at hh
  split at hh <;> cases hh
  · exact functionEntry_sound
  · exact functionResult_sound
  · exact event_sound
  · exact fun _ => outputLocals_sound
  · exact noTerms_sound
  · exact variableGet_sound
  · exact variableSet_sound
  · exact noTerms_sound
  · exact noTerms_sound
  · exact noTerms_sound
  · exact noTerms_sound
  · exact literalNode_sound
  · exact fun _ => outputLocals_sound
  · exact fun _ => outputLocals_sound
  · exact noTerms_sound

end Handler

namespace Registry

open Build

theorem standard_registerNode_sound (env : Env) (id : NodeId) :
    Sound [] (fun _ => []) (standard.registerNode env id) := by
  refine .get fun w => ?_
  split
  · exact .skip rfl
  · split
    · next hh => exact Handler.standard_sound hh _ _ _
    · exact .skip rfl

end Registry

theorem Working.registerTerms_valid (env : Env) (early : Bool) {w : Working} (h : w.terms.Valid) :
    (w.registerTerms .standard env early).terms.Valid := by
  refine List.foldlRecOn (motive := fun v : Working => v.terms.Valid) _ _ h fun v hv n _ => ?_
  split
  · exact (Registry.standard_registerNode_sound env n.1 v hv (List.forall_mem_nil _)).1
  · exact hv

end VisualScript
