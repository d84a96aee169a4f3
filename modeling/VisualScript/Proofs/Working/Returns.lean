import VisualScript.Proofs.Code.Sections
import VisualScript.Proofs.Working.Blocks

namespace VisualScript

section Parts

variable {α β : Type} {A : α → β → Prop} {l : List α} {parts : List (List β)}

theorem forall₂_flatten (h : List.Forall₂ (fun a part => ∃ b, part = [b] ∧ A a b) l parts) :
    List.Forall₂ A l parts.flatten := by
  induction h with
  | nil => exact .nil
  | cons hpart _ ih =>
      obtain ⟨b, rfl, hb⟩ := hpart
      exact .cons hb ih

theorem forall_mem_left {Q : α → Prop} {m : List β} (h : List.Forall₂ A l m)
    (hQ : ∀ a b, A a b → Q a) : ∀ a ∈ l, Q a :=
  ((List.forall₂_and_left l m).mp (h.imp fun a b hab => ⟨hQ a b hab, hab⟩)).1

theorem forall_mem_right {Q : β → Prop} {m : List β} (h : List.Forall₂ A l m)
    (hQ : ∀ a b, A a b → Q b) : ∀ b ∈ m, Q b :=
  forall_mem_left (List.Forall₂.flip h) fun b a => hQ a b

theorem length_flatten_le (h : List.Forall₂ (fun _ part => part.length ≤ 1) l parts) :
    parts.flatten.length ≤ l.length := by
  induction h with
  | nil => exact Nat.le_refl 0
  | cons hpart _ ih =>
      rw [List.flatten_cons, List.length_append, List.length_cons]
      omega

theorem ne_nil_of_length_flatten (h : List.Forall₂ (fun _ part => part.length ≤ 1) l parts)
    (hlength : parts.flatten.length = l.length) : List.Forall₂ (fun _ part => part ≠ []) l parts := by
  induction h with
  | nil => exact .nil
  | cons hpart hrest ih =>
      have hle := length_flatten_le hrest
      rw [List.flatten_cons, List.length_append, List.length_cons] at hlength
      exact .cons (List.ne_nil_of_length_pos (by omega)) (ih (by omega))

theorem eq_of_append_eq {p : α → Bool} {front front' l' : List α} (h : front ++ l = front' ++ l')
    (hfront : ∀ a ∈ front, p a = false) (hl : ∀ a ∈ l, p a = true) (hl' : ∀ a ∈ l', p a = true)
    (hle : l.length ≤ l'.length) : l = l' := by
  have hfilter := congrArg (List.filter p) h
  rw [List.filter_append, List.filter_append,
    List.filter_eq_nil_iff.mpr fun a ha => Bool.eq_false_iff.mp (hfront a ha),
    List.filter_eq_self.mpr hl, List.filter_eq_self.mpr hl', List.nil_append] at hfilter
  have hlength := congrArg List.length hfilter
  rw [List.length_append] at hlength
  rw [hfilter, List.length_eq_zero_iff.mp (by omega : (front'.filter p).length = 0), List.nil_append]

end Parts

namespace Working

/-- A statement that stores what an input reads in the output of the function that has its name. -/
def StoresInput (w : Working) (id : NodeId) (p : UInt16 × Port) (s : NodeId × Statement) : Prop :=
  ∃ dest src, s = (id, .assign dest src) ∧ w.terms.find? .output p.2.name = some dest ∧
    w.Feeds ⟨id, p.1⟩ src

/-- Code that ends with the stores of all inputs of a result, in their order, and returns. -/
def StoresInputs (w : Working) (id : NodeId) (n : ScriptNode) (code : List (NodeId × Statement)) : Prop :=
  ∃ front stores, code = front ++ stores ++ [(id, .ret)] ∧
    List.Forall₂ (w.StoresInput id) (n.portsWhere .data .input) stores

end Working

theorem Working.StoresInputs.map_iff {φ : Statement → Statement} (hφ : Statement.KeepsReturns φ)
    {w : Working} {id : NodeId} {n : ScriptNode} {code : List (NodeId × Statement)} :
    w.StoresInputs id n (code.map fun t => (t.1, φ t.2)) ↔ w.StoresInputs id n code := by
  constructor
  · rintro ⟨front, stores, hcode, hstores⟩
    obtain ⟨before, last, rfl, hbefore, hlast⟩ := List.map_eq_append_iff.mp hcode
    obtain ⟨front', stores', rfl, _, rfl⟩ := List.map_eq_append_iff.mp hbefore
    obtain ⟨⟨k, s⟩, rfl, hs⟩ := List.map_eq_singleton_iff.mp hlast
    obtain ⟨rfl, hret⟩ := Prod.mk.inj hs
    cases (hφ.ret s).mp hret
    refine ⟨front', stores', rfl, (List.forall₂_map_right_iff.mp hstores).imp fun p t => ?_⟩
    rintro ⟨dest, src, he, hstored⟩
    obtain ⟨hk, hs⟩ := Prod.mk.inj he
    exact ⟨dest, src, Prod.ext hk ((hφ.assign _ _ _).mp hs), hstored⟩
  · rintro ⟨front, stores, rfl, hstores⟩
    refine ⟨front.map fun t => (t.1, φ t.2), stores.map fun t => (t.1, φ t.2), ?_,
      List.forall₂_map_right_iff.mpr ?_⟩
    · rw [List.map_append, List.map_append, List.map_singleton, (hφ.ret _).mpr rfl]
    · refine hstores.imp fun p t => ?_
      rintro ⟨dest, src, rfl, hstored⟩
      exact ⟨dest, src, Prod.ext rfl ((hφ.assign _ _ _).mpr rfl), hstored⟩

namespace Handler

open Build Working

variable {id : NodeId} {n : ScriptNode} {w x : Working}

/-- What a result does with an input that is bound to a term, or to none. -/
def Stored (x : Working) (id : NodeId) (p : UInt16 × Port) (net : Option TermId)
    (part : List Statement) : Prop :=
  match net with
  | some dest => ∃ src, part = [.assign dest src] ∧ x.Feeds ⟨id, p.1⟩ src
  | none => part = []

theorem Stored.single {p : UInt16 × Port} {net : Option TermId} {part : List Statement}
    (h : Stored x id p net part) :
    part.length ≤ 1 ∧ ∀ c ∈ part, c.isAssign = true := by
  cases net with
  | none => cases h; exact ⟨Nat.zero_le 1, List.forall_mem_nil _⟩
  | some dest =>
      obtain ⟨src, rfl, _⟩ := h
      exact ⟨Nat.le_refl 1, List.forall_mem_singleton.mpr rfl⟩

theorem functionResult_stored (env : Env) (hx : (functionResult.emit env id n w).2.Grows x) :
    ∃ parts, (functionResult.emit env id n w).1 = parts.flatten ++ [.ret] ∧
      List.Forall₂ (fun p part => Stored x id p (w.terms.net? ⟨id, p.1⟩) part)
        (n.portsWhere .data .input) parts := by
  refine ⟨_, rfl, Respects.forall₂_mapM (R := Grows) (fun p => ?_) hx fun p _ v hv hend => ?_⟩
  · refine .bind .get fun w => ?_
    split
    · exact .bind (inputTerm_respects _) fun _ => .pure _
    · exact .pure _
  · have hnet : v.terms.net? ⟨id, p.1⟩ = w.terms.net? ⟨id, p.1⟩ := by
      rw [TermTable.net?, TermTable.net?, hv.terms.nets]
    simp only [bind_apply, get_apply, hnet] at hend ⊢
    cases hdest : w.terms.net? ⟨id, p.1⟩ with
    | none => rfl
    | some dest =>
        rw [hdest] at hend
        exact ⟨_, rfl, hend.feeds (inputTerm_feeds _ v)⟩

end Handler

namespace Build

variable {env : Env} {id : NodeId} {n : ScriptNode} {w x : Working} {s : Schedule}

theorem fst_mem_prelude {t : NodeId × Statement}
    (ht : t ∈ ((s.prelude id).mapM (emit .standard env) w).1.flatten) :
    t.1 ∈ s.prelude id := by
  obtain ⟨part, hpart, ht⟩ := List.mem_flatten.mp ht
  obtain ⟨k, hk, v, _, rfl, _⟩ := Respects.mem_mapM (emit_respects env) hpart
  obtain ⟨lead, _, he⟩ := emit_eq .standard env k v
  rw [he] at ht
  obtain ⟨c, _, rfl⟩ := List.mem_map.mp ht
  exact hk

/-- The block of a result: nothing before the stores of the result looks like one of them. -/
theorem block_result (hs : w.schedule .standard = .ok s) (hid : id ∈ s.linear)
    (hn : w.graph.node? id = some n) (hk : n.kind = .functionResult)
    (hx : (block .standard env s id w).2.Grows x) :
    ∃ front parts, (block .standard env s id w).1.statements =
      front ++ (parts.flatten.map fun c => (id, c)) ++ [(id, .ret)] ∧
      (∀ t ∈ front, t.1 = id → t.2.isAssign = false) ∧
      List.Forall₂ (fun p part => Handler.Stored x id p (w.terms.net? ⟨id, p.1⟩) part)
        (n.portsWhere .data .input) parts := by
  have hgrows := Respects.mapM (emit_respects env) (s.prelude id) w
  have hprelude (t : NodeId × Statement)
    (ht : t ∈ ((s.prelude id).mapM (emit .standard env) w).1.flatten) : t.1 ≠ id :=
    Graph.ne_of_mem_prelude hs hid (fst_mem_prelude ht)
  rw [block_eq] at hx ⊢
  generalize (s.prelude id).mapM (emit .standard env) w = prelude at hgrows hprelude hx
  obtain ⟨before, v⟩ := prelude
  simp only at hgrows hprelude hx ⊢
  obtain ⟨lead, hlead, he⟩ := emit_eq .standard env id v
  have hh : Registry.standard.handler? n = some Handler.functionResult := by
    rw [Handler.handler?_standard, hk]
  rw [he, Registry.emitNode_eq (hgrows.graph ▸ hn) hh] at hx ⊢
  obtain ⟨parts, hcode, hparts⟩ := Handler.functionResult_stored env hx
  have hnets (p : PortRef) : v.terms.net? p = w.terms.net? p := by
    rw [TermTable.net?, TermTable.net?, hgrows.terms.nets]
  simp only [hnets] at hparts
  refine ⟨before.flatten ++ lead.map fun c => (id, c), parts, ?_, fun t ht hid => ?_, hparts⟩
  · simp only [hcode, List.map_append, List.append_assoc, List.map_cons, List.map_nil]
  · rcases List.mem_append.mp ht with ht | ht
    · exact absurd hid (hprelude t ht)
    · obtain ⟨c, hc, rfl⟩ := List.mem_map.mp ht
      have hmark := hlead c hc
      cases c <;> first | rfl | cases hmark

theorem storesInputs_iff (hs : w.schedule .standard = .ok s) (hid : id ∈ s.linear)
    (hn : w.graph.node? id = some n) (hk : n.kind = .functionResult)
    (hx : (block .standard env s id w).2.Grows x) :
    x.StoresInputs id n (block .standard env s id w).1.statements ↔
      ∀ p ∈ n.portsWhere .data .input, ∃ dest, w.terms.net? ⟨id, p.1⟩ = some dest ∧
        w.terms.find? .output p.2.name = some dest := by
  obtain ⟨front, parts, hcode, hfront, hparts⟩ := block_result hs hid hn hk hx
  have hgrows : w.Grows x := IsTrans.trans _ _ _ (block_respects env s id w) hx
  constructor
  · rintro ⟨front', stores, hcode', hstores⟩
    have hsame : front ++ parts.flatten.map (fun c => (id, c)) = front' ++ stores :=
      List.append_cancel_right (hcode.symm.trans hcode')
    have hshort := hparts.imp fun _ _ h => h.single.1
    have hlength := hstores.length_eq
    -- Of all statements of the block only the stores assign for the result itself.
    have hstore : parts.flatten.map (fun c => (id, c)) = stores := by
      refine eq_of_append_eq (p := fun t => t.1 = id && t.2.isAssign) hsame ?_ ?_ ?_ ?_
      · exact fun t ht => by simpa using hfront t ht
      · refine List.forall_mem_map.mpr fun c hc => ?_
        simpa using List.forall_mem_flatten.mpr (forall_mem_right hparts fun _ _ h => h.single.2) c hc
      · refine forall_mem_right hstores ?_
        rintro p t ⟨dest, src, rfl, _⟩
        simp [Statement.isAssign]
      · rw [List.length_map, ← hlength]
        exact length_flatten_le hshort
    have hall : parts.flatten.length = (n.portsWhere .data .input).length := by
      rw [hlength, ← hstore, List.length_map]
    have hbound : List.Forall₂ (fun p c => ∃ dest src, c = .assign dest src ∧
        w.terms.net? ⟨id, p.1⟩ = some dest)
        (n.portsWhere .data .input) parts.flatten := by
      refine forall₂_flatten (List.Forall₂.mp (fun p part hne hstored => ?_)
        (ne_nil_of_length_flatten hshort hall) hparts)
      cases hnet : w.terms.net? ⟨id, p.1⟩ <;> rw [hnet] at hstored
      · exact absurd hstored hne
      · obtain ⟨src, rfl, _⟩ := hstored
        exact ⟨_, rfl, _, src, rfl, rfl⟩
    rw [← hstore, List.forall₂_map_right_iff] at hstores
    refine forall_mem_left (List.Forall₂.mp (fun _ _ => And.intro) hbound hstores) ?_
    rintro p c ⟨⟨dest, src, rfl, hnet⟩, ⟨dest', src', he, hfind, _⟩⟩
    cases he
    exact ⟨dest, hnet, (hgrows.find? rfl _).symm.trans hfind⟩
  · intro h
    refine ⟨front, _, hcode, List.forall₂_map_right_iff.mpr (forall₂_flatten ?_)⟩
    refine ((List.forall₂_and_left _ _).mpr ⟨h, hparts⟩).imp fun p part hpart => ?_
    obtain ⟨⟨dest, hnet, hfind⟩, hstored⟩ := hpart
    rw [hnet] at hstored
    obtain ⟨src, rfl, hfeeds⟩ := hstored
    exact ⟨_, rfl, dest, src, rfl, (hgrows.find? rfl _).trans hfind, hfeeds⟩

theorem storesInputs_link (hs : w.schedule .standard = .ok s) (hid : id ∈ s.linear)
    (hn : w.graph.node? id = some n)
    (hk : n.kind = .functionResult) {φ : Statement → Statement} (hφ : Statement.KeepsReturns φ)
      {originOf : NodeId → Option Origin}
    {body : Body} (hbody : let linked := Body.link (blocks .standard env s w).1 originOf
      body = { linked with statements := linked.statements.map φ }) :
    (blocks .standard env s w).2.StoresInputs id n (body.blockOf id) ↔
      ∀ p ∈ n.portsWhere .data .input, ∃ dest, w.terms.net? ⟨id, p.1⟩ = some dest ∧
        w.terms.find? .output p.2.name = some dest := by
  have hnodes := map_node_blocks .standard env s w
  have hnodup := nodup_blocks env hs
  obtain ⟨b, hb, rfl⟩ := List.mem_map.mp (hnodes ▸ hid)
  obtain ⟨i, hi⟩ := List.mem_iff_getElem?.mp hb
  obtain ⟨id', _, v, hv, hblock, hx⟩ := Respects.mem_mapM (block_respects env s) hb
  obtain rfl : id' = b.node := congrArg Block.node hblock
  have hschedule : v.schedule .standard = .ok s := by rw [Working.schedule, hv.graph, hv.entry]; exact hs
  have hn' : v.graph.node? b.node = some n := hv.graph ▸ hn
  obtain ⟨front, parts, hcode, _⟩ := block_result hschedule hid hn' hk hx
  rw [hblock] at hcode
  -- A block that returns keeps its last statement.
  have htrim : b.trim (blocks .standard env s w).1[i + 1]? = b := by
    rcases Block.trim_cases b (blocks .standard env s w).1[i + 1]? with htrim | ⟨_, b', _, hlast, _⟩
    · exact htrim
    · rw [hcode, List.map_append, List.map_singleton] at hlast
      exact absurd (List.append_inj' hlast rfl).2 (by simp)
  rw [hbody, Body.blockOf_mapStatements, Working.StoresInputs.map_iff hφ,
    Block.blockOf_link hnodup originOf hi, htrim,
    Working.StoresInputs.map_iff (Statement.mapTarget_keepsReturns _), ← hblock]
  have hiff := storesInputs_iff hschedule hid hn' hk hx
  have hnets (p : PortRef) : v.terms.net? p = w.terms.net? p := by
    rw [TermTable.net?, TermTable.net?, hv.terms.nets]
  have hfind (name : String) : v.terms.find? .output name = w.terms.find? .output name := hv.find? rfl name
  simp only [hnets, hfind] at hiff
  exact hiff

end Build

end VisualScript
