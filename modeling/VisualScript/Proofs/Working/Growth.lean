import Mathlib.Order.Defs.Unbundled
import VisualScript.Proofs.Term.Storage
import VisualScript.Working.Standard

namespace VisualScript

namespace TermTable

/-- A table to which terms were added. The terms there were keep their kinds, types and texts, though
not their names, and only slots of the class are declared anew, for new terms. -/
structure Grows (t t' : TermTable) : Prop where
  nets : t'.nets = t.nets
  term : ∀ {id : TermId} {term : Term}, t.get? id = some term →
    ∃ term', t'.get? id = some term' ∧ term'.kind = term.kind ∧ term'.type = term.type ∧
      term'.literal = term.literal
  declared : ∀ {k : TermKind × String} {id : TermId}, t.declared.get? k = some id →
    t'.declared.get? k = some id
  later : ∀ {k : TermKind × String} {id : TermId}, t'.declared.get? k = some id →
    t.declared.get? k = some id ∨ (t.terms.length ≤ id ∧ k.1.isClassScope = true)

variable {t t' t'' : TermTable}

theorem Grows.length_le (h : t.Grows t') : t.terms.length ≤ t'.terms.length := by
  refine Nat.le_of_not_lt fun hlt => ?_
  obtain ⟨term', ht', _⟩ := h.term (List.getElem?_eq_getElem hlt)
  exact absurd (List.getElem?_eq_some_iff.mp ht').1 (Nat.lt_irrefl _)

theorem Grows.refl (t : TermTable) : t.Grows t := ⟨rfl, fun h => ⟨_, h, rfl, rfl, rfl⟩, id, Or.inl⟩

theorem Grows.trans (h : t.Grows t') (h' : t'.Grows t'') : t.Grows t'' where
  nets := h'.nets.trans h.nets
  term ht := by
    obtain ⟨a, ha, hkind, htype, hliteral⟩ := h.term ht
    obtain ⟨b, hb, hkind', htype', hliteral'⟩ := h'.term ha
    exact ⟨b, hb, hkind'.trans hkind, htype'.trans htype, hliteral'.trans hliteral⟩
  declared hk := h'.declared (h.declared hk)
  later hk := by
    rcases h'.later hk with hk | ⟨hle, hscope⟩
    · exact h.later hk
    · exact Or.inr ⟨Nat.le_trans h.length_le hle, hscope⟩

theorem Grows.names (t : TermTable) (names : NameTable) (literalCount : Nat) :
    t.Grows { t with names, literalCount } :=
  ⟨rfl, fun h => ⟨_, h, rfl, rfl, rfl⟩, id, Or.inl⟩

theorem Grows.push (t : TermTable) (kind : TermKind) (name declared : String) (type : PinType)
    (literal : Option String) :
    t.Grows (t.push kind name declared type literal).2 where
  nets := rfl
  term h :=
    ⟨_, (List.getElem?_append_left (List.getElem?_eq_some_iff.mp h).1).trans h, rfl, rfl, rfl⟩
  declared h := h
  later := Or.inl

theorem Grows.rename (t : TermTable) (id : TermId) (name : String) : t.Grows (t.rename id name) where
  nets := rfl
  term {k term} h := by
    rw [get?] at h
    rw [get?, TermTable.rename, List.getElem?_modify, h]
    by_cases hk : id = k
    · exact ⟨{ term with name }, by simp [hk], rfl, rfl, rfl⟩
    · exact ⟨term, by simp [hk], rfl, rfl, rfl⟩
  declared h := h
  later := Or.inl

theorem Grows.declare (h : t.Grows t') {k : TermKind × String} {id : TermId}
    (hk : t'.declared.get? k = none) (hid : t.terms.length ≤ id)
    (hscope : k.1.isClassScope = true) :
    t.Grows { t' with declared := t'.declared.insert k id } where
  nets := h.nets
  term := h.term
  declared {k' id'} hk' := by
    have hne : k' ≠ k := by
      rintro rfl
      rw [h.declared hk'] at hk
      cases hk
    exact (OrderedMap.get?_insert_of_ne _ _ hne).trans (h.declared hk')
  later {k' id'} hk' := by
    by_cases he : k' = k
    · subst he
      rw [OrderedMap.get?_insert, if_pos rfl] at hk'
      exact Or.inr ⟨Option.some.inj hk' ▸ hid, hscope⟩
    · exact h.later ((OrderedMap.get?_insert_of_ne _ _ he).symm.trans hk')

theorem Grows.declareIfNew (h : t.Grows t') (k : TermKind × String) {id : TermId}
    (hid : t.terms.length ≤ id) (hscope : k.1.isClassScope = true) :
    t.Grows { t' with declared := t'.declared.insertIfNew k id } := by
  rw [OrderedMap.insertIfNew, OrderedMap.contains_eq_isSome]
  cases hk : t'.declared.get? k with
  | some id' => exact h
  | none => exact h.declare hk hid hscope

theorem Grows.add (t : TermTable) {kind : TermKind} (hscope : kind.isClassScope = true)
    (declared : String) (type : PinType) :
    t.Grows (t.add kind declared type).2 :=
  ((Grows.names t _ _).trans (.push _ _ _ _ _ _)).declareIfNew (kind, declared) (Nat.le_refl _) hscope

theorem Grows.addLiteral (t : TermTable) (type : PinType) (value : String) :
    t.Grows (t.addLiteral type value).2 :=
  (Grows.names t _ _).trans (.push _ _ _ _ _ _)

theorem Grows.renamed (h : t.Renamed t') : t.Grows t' := by
  cases h with
  | names names => exact .names t names _
  | rename names id name => exact (Grows.names t names _).trans (.rename _ id name)

theorem Grows.member {kind : TermKind} (hscope : kind.isClassScope = true) {name : String} {type : PinType}
    {r : TermId × TermTable} (h : t.member kind name type = .ok r) : t.Grows r.2 := by
  rcases member_cases h with ⟨_, ht⟩ | ⟨hk, u, hu, rfl⟩
  · exact ht ▸ .refl t
  · exact ((Grows.renamed hu).trans (.push u _ _ _ _ _)).declare (hu.declared ▸ hk)
      (Nat.le_of_eq hu.length.symm) hscope

end TermTable

namespace Working

def source? (w : Working) (p : PortRef) : Option TermId := (w.graph.farEnds p).head?.bind w.terms.net?

def fallback (w : Working) (p : PortRef) : PinType × String := match w.graph.port? p with
  | some port => (port.type, port.default.getD port.type.zeroLiteral)
  | none => (.wildcard, "")

/-- It is the same function, and no handler has asked to cancel. -/
structure SameFunction (w w' : Working) : Prop where
  function : w'.function = w.function
  role : w'.role = w.role
  sourceGraph : w'.sourceGraph = w.sourceGraph
  cancelled : w'.cancelled = w.cancelled

instance : Std.Refl SameFunction := ⟨fun _ => ⟨rfl, rfl, rfl, rfl⟩⟩

instance : IsTrans Working SameFunction := ⟨fun _ _ _ h h' =>
  ⟨h'.function.trans h.function, h'.role.trans h.role, h'.sourceGraph.trans h.sourceGraph,
    h'.cancelled.trans h.cancelled⟩⟩

/-- The graph stays as it is, and what was reported stays reported. No handler fails on a graph
without threads. -/
structure Frame (w w' : Working) : Prop extends SameFunction w w' where
  graph : w'.graph = w.graph
  entry : w'.entry = w.entry
  diagnostics : w.diagnostics <+: w'.diagnostics
  crashed : w.graph.threads = none → w'.crashed = w.crashed

theorem frame_of_terms (w : Working) (terms : TermTable) : w.Frame { w with terms } :=
  ⟨⟨rfl, rfl, rfl, rfl⟩, rfl, rfl, List.prefix_rfl, fun _ => rfl⟩

theorem frame_inspect (w : Working) (p : PortRef) : w.Frame (w.inspect p) := by
  refine ⟨⟨rfl, rfl, rfl, rfl⟩, rfl, rfl, List.prefix_rfl, fun hthreads => ?_⟩
  rw [inspect, Graph.frayedAt, Graph.frayed, hthreads, Option.any_none, Bool.and_false,
    Bool.false_and, Bool.or_false]

structure Noted (w w' : Working) : Prop extends Frame w w' where
  terms : w'.terms = w.terms

theorem noted_report (w : Working) (issue : Issue) (node : Option NodeId) (port : Option UInt16) :
    w.Noted (w.report issue node port) :=
      ⟨⟨⟨rfl, rfl, rfl, rfl⟩, rfl, rfl, List.prefix_append _ _, fun _ => rfl⟩, rfl⟩

/-- Terms are added at most, and no output is bound anew. -/
structure Grows (w w' : Working) : Prop extends Frame w w' where
  terms : w.terms.Grows w'.terms

instance : Std.Refl Frame := ⟨fun w => ⟨Std.Refl.refl w, rfl, rfl, List.prefix_rfl, fun _ => rfl⟩⟩

instance : IsTrans Working Frame := ⟨fun _ _ _ h h' =>
  ⟨IsTrans.trans _ _ _ h.toSameFunction h'.toSameFunction, h'.graph.trans h.graph, h'.entry.trans h.entry,
    h.diagnostics.trans h'.diagnostics,
    fun hthreads => (h'.crashed (h.graph ▸ hthreads)).trans (h.crashed hthreads)⟩⟩

instance : Std.Refl Noted := ⟨fun w => ⟨Std.Refl.refl w, rfl⟩⟩

instance : IsTrans Working Noted :=
  ⟨fun _ _ _ h h' => ⟨IsTrans.trans _ _ _ h.toFrame h'.toFrame, h'.terms.trans h.terms⟩⟩

instance : Std.Refl Grows := ⟨fun w => ⟨Std.Refl.refl w, .refl _⟩⟩

instance : IsTrans Working Grows :=
  ⟨fun _ _ _ h h' => ⟨IsTrans.trans _ _ _ h.toFrame h'.toFrame, h.terms.trans h'.terms⟩⟩

theorem Grows.find? {w v : Working} (h : w.Grows v) {kind : TermKind}
    (hscope : kind.isClassScope = false) (name : String) :
    v.terms.find? kind name = w.terms.find? kind name := by
  cases hw : w.terms.find? kind name with
  | some id => exact h.terms.declared hw
  | none =>
      refine Option.eq_none_iff_forall_ne_some.mpr fun id hv => ?_
      rcases h.terms.later hv with hd | ⟨_, hclass⟩
      · exact absurd (hw.symm.trans hd) (Option.some_ne_none id).symm
      · exact absurd (hscope.symm.trans hclass) Bool.false_ne_true

end Working

namespace Build

variable {α β : Type} {R : Working → Working → Prop} {f : α → Build β} {w : Working}
    {kind : TermKind} {l : List α}

@[simp] theorem pure_apply (a : α) (w : Working) : (Pure.pure a : Build α) w = (a, w) := rfl

@[simp] theorem get_apply (w : Working) : (MonadState.get : Build Working) w = (w, w) := rfl

@[simp] theorem modify_apply (f : Working → Working) (w : Working) :
    (modify f : Build PUnit) w = (⟨⟩, f w) := rfl

@[simp] theorem bind_apply (x : Build α) (f : α → Build β) (w : Working) :
    (x >>= f) w = f (x w).1 (x w).2 := rfl

def Respects (R : Working → Working → Prop) (x : Build α) : Prop := ∀ w, R w (x w).2

theorem Respects.pure [Std.Refl R] (a : α) : Respects R (Pure.pure a : Build α) := fun w => Std.Refl.refl w

theorem Respects.get [Std.Refl R] : Respects R (MonadState.get : Build Working) := fun w => Std.Refl.refl w

theorem Respects.bind [IsTrans Working R] {x : Build α} (hx : Respects R x)
    (hf : ∀ a, Respects R (f a)) : Respects R (x >>= f) :=
  fun w => IsTrans.trans _ _ _ (hx w) (hf (x w).1 (x w).2)

theorem mapM_cons (f : α → Build β) (a : α) (l : List α) (w : Working) :
    (a :: l).mapM f w = ((f a w).1 :: (l.mapM f (f a w).2).1, (l.mapM f (f a w).2).2) := by
  rw [List.mapM_cons]
  rfl

theorem Respects.mapM [Std.Refl R] [IsTrans Working R] (hf : ∀ a, Respects R (f a)) (l : List α) :
    Respects R (l.mapM f) := by
  induction l with
  | nil => exact .pure []
  | cons a l ih => exact List.mapM_cons (f := f) ▸ .bind (hf a) fun _ => .bind ih fun _ => .pure _

theorem Respects.forM_mem [Std.Refl R] [IsTrans Working R] {f : α → Build PUnit}
    (hf : ∀ a ∈ l, Respects R (f a)) :
    Respects R (l.forM f) := by
  induction l with
  | nil => exact .pure _
  | cons a l ih =>
      obtain ⟨ha, hl⟩ := List.forall_mem_cons.mp hf
      exact .bind ha fun _ => ih hl

theorem Respects.forM [Std.Refl R] [IsTrans Working R] {f : α → Build PUnit}
    (hf : ∀ a, Respects R (f a)) (l : List α) :
    Respects R (l.forM f) :=
  .forM_mem fun a _ => hf a

theorem Respects.mem_mapM [Std.Refl R] [IsTrans Working R] (hf : ∀ a, Respects R (f a)) {b : β}
    (hb : b ∈ (l.mapM f w).1) :
    ∃ a ∈ l, ∃ v, R w v ∧ (f a v).1 = b ∧ R (f a v).2 (l.mapM f w).2 := by
  induction l generalizing w with
  | nil => cases hb
  | cons a l ih =>
      rw [mapM_cons] at hb ⊢
      rcases List.mem_cons.mp hb with rfl | hb
      · exact ⟨a, List.mem_cons_self, w, Std.Refl.refl w, rfl, Respects.mapM hf l _⟩
      · obtain ⟨a', ha', v, hv, hab, hend⟩ := ih hb
        exact ⟨a', List.mem_cons_of_mem a ha', v, IsTrans.trans _ _ _ (hf a w) hv, hab, hend⟩

theorem Respects.forall_mapM [Std.Refl R] [IsTrans Working R] (hf : ∀ a, Respects R (f a))
    {P : β → Prop} {Q : α → Prop} (h : ∀ a ∈ l, ∀ v, R w v → (P (f a v).1 ↔ Q a)) :
    (∀ b ∈ (l.mapM f w).1, P b) ↔ ∀ a ∈ l, Q a := by
  induction l generalizing w with
  | nil => exact iff_of_true (List.forall_mem_nil _) (List.forall_mem_nil _)
  | cons a l ih =>
      rw [mapM_cons, List.forall_mem_cons, List.forall_mem_cons]
      have hrest := ih fun a' ha' v hv => h a' (List.mem_cons_of_mem a ha') v
        (IsTrans.trans _ _ _ (hf a w) hv)
      exact and_congr (h a List.mem_cons_self w (Std.Refl.refl w)) hrest

theorem Respects.forall₂_mapM [Std.Refl R] [IsTrans Working R] (hf : ∀ a, Respects R (f a))
    {Q : α → β → Prop} {w x : Working} (hx : R (l.mapM f w).2 x)
    (h : ∀ a ∈ l, ∀ v, R w v → R (f a v).2 x → Q a (f a v).1) : List.Forall₂ Q l (l.mapM f w).1 := by
  induction l generalizing w with
  | nil => exact .nil
  | cons a l ih =>
      rw [mapM_cons] at hx ⊢
      refine .cons (h a List.mem_cons_self w (Std.Refl.refl w)
        (IsTrans.trans _ _ _ (Respects.mapM hf l _) hx)) (ih hx ?_)
      exact fun a' ha' v hv => h a' (List.mem_cons_of_mem a ha') v (IsTrans.trans _ _ _ (hf a w) hv)

theorem map_mapM {g : β → α} (hf : ∀ a w, g (f a w).1 = a) (l : List α) (w : Working) :
    (l.mapM f w).1.map g = l := by
  induction l generalizing w with
  | nil => rfl
  | cons a l ih => rw [mapM_cons, List.map_cons, hf, ih]

theorem report_respects (issue : Issue) (node : Option NodeId) (port : Option UInt16) :
    Respects Working.Grows (report issue node port) :=
  fun w => ⟨(w.noted_report issue node port).toFrame, .refl _⟩

theorem onTerms_respects {f : TermTable → α × TermTable} (hf : ∀ t : TermTable, t.Grows (f t).2) :
    Respects Working.Grows (onTerms f) :=
  fun w => ⟨w.frame_of_terms _, hf w.terms⟩

theorem literal_respects (type : PinType) (value : String) : Respects Working.Grows (literal type value) :=
  onTerms_respects fun t => .addLiteral t type value

theorem inspect_grows (w : Working) (port : PortRef) :
    w.Grows (w.inspect port) := ⟨w.frame_inspect port, .refl _⟩

theorem inputTerm_of_source {port : PortRef} {term : TermId} (h : w.source? port = some term) :
    inputTerm port w = (term, w.inspect port) := by
  have hsource : ((w.inspect port).graph.farEnds port).head?.bind (w.inspect port).terms.net? =
      some term := h
  simp only [inputTerm, bind_apply, get_apply, modify_apply, hsource]
  rfl

theorem inputTerm_of_no_source {port : PortRef} (h : w.source? port = none) :
    inputTerm port w = literal (w.fallback port).1 (w.fallback port).2 (w.inspect port) := by
  have hsource : ((w.inspect port).graph.farEnds port).head?.bind (w.inspect port).terms.net? = none := h
  have hport : (w.inspect port).graph.port? port = w.graph.port? port := rfl
  simp only [inputTerm, bind_apply, get_apply, modify_apply, hsource, Working.fallback, hport]
  cases w.graph.port? port <;> rfl

theorem inputTerm_respects (port : PortRef) : Respects Working.Grows (inputTerm port) := by
  intro w
  cases hsource : w.source? port with
  | some term =>
      rw [inputTerm_of_source hsource]
      exact inspect_grows w port
  | none =>
      rw [inputTerm_of_no_source hsource]
      exact IsTrans.trans _ _ _ (inspect_grows w port) (literal_respects _ _ _)

theorem classSlot_ok {name : String} {type : PinType} {r : TermId × TermTable}
    (h : w.terms.member kind name type = .ok r) (node : NodeId) :
    classSlot kind name type node w = (r.1, { w with terms := r.2 }) := by
  simp only [classSlot, bind_apply, get_apply, h]
  rfl

theorem classSlot_error {name : String} {type : PinType} {clash : NameClash}
    (h : w.terms.member kind name type = .error clash) (node : NodeId) :
    classSlot kind name type node w =
      onTerms (fun t => t.add kind name type) (w.report (.classSlotClash clash.name) (some node)) := by
  simp only [classSlot, bind_apply, get_apply, h]
  rfl

theorem classSlot_respects (hscope : kind.isClassScope = true) (name : String) (type : PinType)
    (node : NodeId) : Respects Working.Grows (classSlot kind name type node) := by
  intro w
  cases hm : w.terms.member kind name type with
  | ok r =>
      rw [classSlot_ok hm]
      exact ⟨w.frame_of_terms r.2, .member hscope hm⟩
  | error clash =>
      rw [classSlot_error hm]
      have hreport := report_respects (.classSlotClash clash.name) (some node) none w
      exact IsTrans.trans _ _ _ hreport (onTerms_respects (fun t => .add t hscope name type) _)

theorem variableTerm?_respects [Std.Refl R] [IsTrans Working R] {node : NodeId}
    (h : ∀ name type, Respects R (classSlot .member name type node)) (env : Env) (name : String) :
    Respects R (variableTerm? env name node) := by
  refine .bind .get fun w => ?_
  split
  · exact .pure _
  · split
    · exact .bind (h _ _) fun _ => .pure _
    · exact .pure _

end Build

end VisualScript
