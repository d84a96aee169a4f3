import VisualScript.Proofs.Graph.Scheduling
import VisualScript.Proofs.Term.Changes
import VisualScript.Proofs.Working.Validation

namespace VisualScript

namespace Working

/-- Unless an error is reported, the terms change only as the sites and the slots allow. -/
structure Registers (sites : PortRef → Prop) (slots : TermKind → String → PinType → Prop)
    (w w' : Working) : Prop
    extends Frame w w' where
  terms : w'.hasErrors = false → TermTable.Changes sites slots w.terms w'.terms

variable {sites : PortRef → Prop} {slots : TermKind → String → PinType → Prop} {w w' : Working}

instance : Std.Refl (Registers sites slots) := ⟨fun w => ⟨Std.Refl.refl w, fun _ => .refl⟩⟩

instance : IsTrans Working (Registers sites slots) := ⟨fun _ _ _ h h' =>
  ⟨IsTrans.trans _ _ _ h.toFrame h'.toFrame,
    fun hw => (h.terms (h'.toFrame.hasErrors hw)).trans (h'.terms hw)⟩⟩

theorem Registers.mono {sites' : PortRef → Prop} {slots' : TermKind → String → PinType → Prop}
    (h : Registers sites slots w w') (hsites : ∀ p, sites p → sites' p)
    (hslots : ∀ kind name type, slots kind name type → slots' kind name type) :
    Registers sites' slots' w w' :=
  ⟨h.toFrame, fun hw => .mono (h.terms hw) hsites hslots⟩

theorem Noted.registers (h : w.Noted w') :
    Registers sites slots w w' := ⟨h.toFrame, fun _ => h.terms ▸ .refl⟩

theorem hasErrors_report (issue : Issue) (h : issue.isError = true) (w : Working)
    (node : Option NodeId) (port : Option UInt16) :
    (w.report issue node port).hasErrors = true := by
  simp [hasErrors, report, Diagnostic.isError, h]

end Working

namespace Build

open Working

variable {sites : PortRef → Prop} {slots : TermKind → String → PinType → Prop} {kind : TermKind}

theorem onTerms_registers {α : Type} {f : TermTable → α × TermTable}
    (hf : ∀ t, TermTable.Changes sites slots t (f t).2) :
    Respects (Registers sites slots) (onTerms f) :=
  fun w => ⟨w.frame_of_terms _, fun _ => hf w.terms⟩

theorem add_registers (hscope : kind.isClassScope = false) (declared : String) (type : PinType) :
    Respects (Registers sites slots) (onTerms fun t => t.add kind declared type) :=
  onTerms_registers fun t => .single (.add t kind declared type hscope)

theorem addLocal_registers (declared : String) (type : PinType) (initial : Option String) :
    Respects (Registers sites slots) (onTerms fun t => t.addLocal declared type initial) := by
  refine onTerms_registers fun t => ?_
  rw [TermTable.addLocal]
  cases initial with
  | none => exact .single (.add t .local declared type rfl)
  | some value => exact .head (.add t .local declared type rfl) (.single (.initial _ _))

theorem literal_registers (type : PinType) (value : String) :
    Respects (Registers sites slots) (literal type value) :=
  onTerms_registers fun t => .single (.literal t type value)

theorem bind_registers (id : NodeId) (index : UInt16) (term : TermId) :
    Respects (Registers (·.node = id) slots) (bind ⟨id, index⟩ term) :=
  fun w => ⟨w.frame_of_terms _, fun _ => .single (.bind w.terms ⟨id, index⟩ term rfl)⟩

theorem classSlot_of_valid {name : String} {type : PinType} {node : NodeId} {w : Working}
    (hv : (classSlot kind name type node w).2.hasErrors = false) :
    ∃ r, w.terms.member kind name type = .ok r := by
  cases hm : w.terms.member kind name type with
  | ok r => exact ⟨r, rfl⟩
  | error clash =>
      have hreported := hasErrors_report (.classSlotClash clash.name) rfl w (some node) none
      rw [classSlot_error hm] at hv
      rw [(onTerms_frame (fun t => t.add kind name type) _).hasErrors hv] at hreported
      cases hreported

theorem classSlot_registers {name : String} {type : PinType} (h : slots kind name type) (node : NodeId) :
    Respects (Registers sites slots) (classSlot kind name type node) := by
  intro w
  cases hm : w.terms.member kind name type with
  | ok r =>
      rw [classSlot_ok hm]
      exact ⟨w.frame_of_terms _, fun _ => .single (.slot w.terms kind name type r h hm)⟩
  | error clash =>
      refine ⟨?_, fun hno => ?_⟩
      · rw [classSlot_error hm]
        exact IsTrans.trans _ _ _ (noted_report _ _ _ none).toFrame (onTerms_frame _ _)
      · obtain ⟨r, hr⟩ := classSlot_of_valid hno
        cases hm.symm.trans hr

theorem inputTerm_registers (port : PortRef) : Respects (Registers sites slots) (inputTerm port) := by
  intro w
  have hinspect : Registers sites slots w (w.inspect port) := (noted_inspect w port).registers
  cases hsource : w.source? port with
  | some term =>
      rw [inputTerm_of_source hsource]
      exact hinspect
  | none =>
      rw [inputTerm_of_no_source hsource]
      exact IsTrans.trans _ _ _ hinspect (literal_registers _ _ _)

structure Makes (slots : TermKind → String → PinType → Prop) (Q : Term → Prop) (x : Build TermId) :
    Prop where
  registers : Respects (Registers (fun _ => False) slots) x
  term : ∀ w : Working, w.terms.Orderly → (x w).2.hasErrors = false →
    ∃ a, (x w).2.terms.get? (x w).1 = some a ∧ Q a

theorem add_makes (hscope : kind.isClassScope = false) (declared : String) (type : PinType) :
    Makes slots (fun a => a.kind = kind ∧ a.declared = declared ∧ a.type = type)
      (onTerms fun t => t.add kind declared type) :=
  ⟨add_registers hscope declared type, fun _ _ _ =>
    ⟨_, (TermTable.get?_push _ kind _ declared type none _).trans (if_pos rfl), rfl, rfl, rfl⟩⟩

theorem classSlot_makes (hscope : kind.isClassScope = true) {name : String} {type : PinType}
    (h : slots kind name type) (node : NodeId) :
    Makes slots (fun a => a.kind = kind ∧ a.name = name) (classSlot kind name type node) := by
  refine ⟨classSlot_registers h node, fun w ht hv => ?_⟩
  obtain ⟨r, hr⟩ := classSlot_of_valid hv
  rw [classSlot_ok hr]
  exact TermTable.get?_member ht hscope hr

variable {id : NodeId} {make : UInt16 × Port → Build TermId} {ports : List (UInt16 × Port)}

variable (id) in
theorem forM_bind_registers (h : ∀ p ∈ ports, Respects (Registers (fun _ => False) slots) (make p)) :
    Respects (Registers (fun q => ∃ p ∈ ports, q = ⟨id, p.1⟩) slots)
      (ports.forM fun p => make p >>= bind ⟨id, p.1⟩) := by
  refine .forM_mem fun p hp w => ?_
  have hmake : Registers (fun q => ∃ p ∈ ports, q = ⟨id, p.1⟩) slots w (make p w).2 :=
    (h p hp w).mono (fun _ => False.elim) fun _ _ _ hslot => hslot
  exact IsTrans.trans _ _ _ hmake ⟨frame_of_terms _ _, fun _ => .single (.bind _ _ _ ⟨p, hp, rfl⟩)⟩

/-- Terms that are made for ports stay what they are. If the ports are told apart, each keeps its own. -/
theorem forM_bind_makes {Q : UInt16 × Port → Term → Prop}
    (h : ∀ p ∈ ports, Makes slots (Q p) (make p)) (hQ : ∀ p a b, a.Alike b → Q p a → Q p b)
    {w : Working} (ht : w.terms.Orderly)
    (hv : (ports.forM (fun p => make p >>= bind ⟨id, p.1⟩) w).2.hasErrors = false)
    {p : UInt16 × Port} (hp : p ∈ ports) :
    (∃ i a, (ports.forM (fun p => make p >>= bind ⟨id, p.1⟩) w).2.terms.get? i = some a ∧ Q p a) ∧
      ((ports.map Prod.fst).Nodup →
        (ports.forM (fun p => make p >>= bind ⟨id, p.1⟩) w).2.terms.Binds ⟨id, p.1⟩ (Q p)) := by
  induction ports generalizing w with
  | nil => cases hp
  | cons q rest ih =>
      obtain ⟨hq, hrest⟩ := List.forall_mem_cons.mp h
      have hrun : (q :: rest).forM (fun p => make p >>= bind ⟨id, p.1⟩) w =
          rest.forM (fun p => make p >>= bind ⟨id, p.1⟩)
            (bind ⟨id, q.1⟩ (make q w).1 (make q w).2).2 := rfl
      rw [hrun] at hv ⊢
      have hlater := forM_bind_registers id (fun p hp => (hrest p hp).registers)
        (bind ⟨id, q.1⟩ (make q w).1 (make q w).2).2
      have hmade := (hq.registers w).terms (hlater.toFrame.hasErrors hv)
      have ht' : (bind ⟨id, q.1⟩ (make q w).1 (make q w).2).2.terms.Orderly :=
        (TermTable.Changes.orderly hmade ht).bind _ _
      rcases List.mem_cons.mp hp with rfl | hp
      · obtain ⟨a, ha, hqa⟩ := hq.term w ht (hlater.toFrame.hasErrors hv)
        constructor
        · obtain ⟨b, hb, hab⟩ :=
            (TermTable.Changes.keeps (hlater.terms hv) ht').old (show _ = some a from ha)
          exact ⟨_, b, hb, hQ p a b hab hqa⟩
        · intro hnodup
          have hbound : (bind ⟨id, p.1⟩ (make p w).1 (make p w).2).2.terms.Binds ⟨id, p.1⟩ (Q p) :=
            ⟨_, a, (OrderedMap.get?_insert _ _ _ _).trans (if_pos rfl), ha, hqa⟩
          refine hbound.changes (hQ p) ht' (hlater.terms hv) ?_
          rintro ⟨p', hp', he⟩
          refine (List.nodup_cons.mp hnodup).1 (List.mem_map.mpr ⟨p', hp', ?_⟩)
          exact (PortRef.mk.inj he).2.symm
      · obtain ⟨hterm, hbound⟩ := ih hrest ht' hv hp
        exact ⟨hterm, fun hnodup => hbound (List.nodup_cons.mp hnodup).2⟩

end Build

namespace Handler

open Build Working

theorem admitsRegister_registers (id : NodeId) (n : ScriptNode) :
    AdmitsRegister (Registers (·.node = id) n.Asks) id n where
  add _ hscope := add_registers hscope
  addLocal _ := addLocal_registers
  literal _ := literal_registers
  slot _ h := classSlot_registers h id
  bind := bind_registers id
  report _ issue w := (w.noted_report issue (some id) none).registers

end Handler

namespace Working

variable {w : Working} {env : Env} {n : ScriptNode} {p : UInt16 × Port}

theorem registerNode_registers {id : NodeId} (hn : w.graph.node? id = some n) (env : Env) :
    Registers (·.node = id) n.Asks w (Registry.standard.registerNode env id w).2 := by
  simp only [Registry.registerNode, Build.bind_apply, Build.get_apply, hn]
  cases hh : Registry.standard.handler? n with
  | none => exact Std.Refl.refl w
  | some h => exact (Handler.admitsRegister_registers id n).register hh w

abbrev registerNodes (env : Env) (early : Bool) (nodes : List (NodeId × ScriptNode)) (w : Working) :
    Working :=
  nodes.foldl (fun w n => if Registry.standard.isEarly n.2 =
    early then (Registry.standard.registerNode env n.1 w).2 else w) w

theorem registerNodes_registers (env : Env) (early : Bool) {nodes : List (NodeId × ScriptNode)}
    (h : ∀ x ∈ nodes, w.graph.node? x.1 = some x.2) :
    Registers (fun q => ∃ x ∈ nodes, q.node = x.1 ∧ Registry.standard.isEarly x.2 = early)
      (fun kind name type => ∃ x ∈ nodes, Registry.standard.isEarly x.2 = early ∧
        x.2.Asks kind name type) w
      (registerNodes env early nodes w) := by
  refine List.foldlRecOn (motive := fun v => Registers _ _ w v) nodes _ (Std.Refl.refl w)
    fun v hv x hx => ?_
  split
  · next hearly =>
      refine IsTrans.trans _ _ _ hv ((registerNode_registers (hv.graph ▸ h x hx) env).mono ?_ ?_)
      · exact fun q hq => ⟨x, hx, hq, hearly⟩
      · exact fun kind name type hasks => ⟨x, hx, hearly, hasks⟩
  · exact hv

def Asks (w : Working) (early : Bool) (kind : TermKind) (name : String) (type : PinType) : Prop :=
  ∃ (id : NodeId) (n : ScriptNode), w.graph.node? id = some n ∧
    Registry.standard.isEarly n = early ∧ n.Asks kind name type

theorem registerTerms_registers (env : Env) (early : Bool) (w : Working) :
    Registers (fun q => ∃ n, w.graph.node? q.node = some n ∧ Registry.standard.isEarly n = early)
      (w.Asks early) w
      (w.registerTerms .standard env early) := by
  refine (registerNodes_registers env early fun x hx => Graph.mem_nodes.mp hx).mono ?_ ?_
  · rintro q ⟨x, hx, hq, hearly⟩
    exact ⟨x.2, hq ▸ Graph.mem_nodes.mp hx, hearly⟩
  · rintro kind name type ⟨x, hx, hearly, hasks⟩
    exact ⟨x.1, x.2, Graph.mem_nodes.mp hx, hearly, hasks⟩

/-- Each node registers its terms once those before it have done so, and what comes later leaves its
ports alone. -/
theorem registerTerms_at (env : Env) {early : Bool} {id : NodeId} (hn : w.graph.node? id = some n)
    (hearly : Registry.standard.isEarly n = early) :
    ∃ v, v = registerNodes env early (w.graph.nodes.takeWhile fun x => x.1 ≠ id) w ∧
      Registers (fun _ => True) (w.Asks early) w v ∧
      Registers (·.node ≠ id) (w.Asks early) (Registry.standard.registerNode env id v).2
        (w.registerTerms .standard env early) := by
  obtain ⟨before, after, hnodes⟩ := List.append_of_mem (Graph.mem_nodes.mpr hn)
  have hmem (x : NodeId × ScriptNode) (hx : x ∈ before ∨ x ∈ after) : w.graph.node? x.1 = some x.2 := by
    refine Graph.mem_nodes.mp ?_
    rw [hnodes, List.mem_append, List.mem_cons]
    exact hx.imp_right Or.inr
  have hnodup := w.graph.nodup_nodes
  rw [hnodes, List.map_append, List.map_cons, List.nodup_append] at hnodup
  obtain ⟨_, hnodup, hapart⟩ := hnodup
  have htake : (w.graph.nodes.takeWhile fun x => x.1 ≠ id) = before := by
    rw [hnodes, List.takeWhile_append_of_pos, List.takeWhile_cons_of_neg (by simp), List.append_nil]
    exact fun x hx => decide_eq_true (hapart x.1 (List.mem_map_of_mem hx) id List.mem_cons_self)
  have hbefore := registerNodes_registers env early fun x hx => hmem x (Or.inl hx)
  have hstep := Registry.standard_registerNode env id (registerNodes env early before w)
  have hafter := registerNodes_registers env early fun x hx => (hstep.graph.trans hbefore.graph) ▸
    hmem x (Or.inr hx)
  refine ⟨_, congrArg (registerNodes env early · w) htake.symm, hbefore.mono (fun _ _ => trivial) ?_, ?_⟩
  · rintro kind name type ⟨x, hx, hx', hasks⟩
    exact ⟨x.1, x.2, hmem x (Or.inl hx), hx', hasks⟩
  · rw [registerTerms, hnodes, List.foldl_append, List.foldl_cons, if_pos hearly]
    refine hafter.mono ?_ ?_
    · rintro q ⟨x, hx, hq, _⟩ he
      exact (List.nodup_cons.mp hnodup).1 (List.mem_map.mpr ⟨x, hx, hq.symm.trans he⟩)
    · rintro kind name type ⟨x, hx, hx', hasks⟩
      exact ⟨x.1, x.2, hmem x (Or.inr hx), hx', hasks⟩

theorem registerNode_eq {h : Handler} {id : NodeId} (hn : w.graph.node? id = some n)
    (hh : Registry.standard.handler? n = some h) (env : Env) :
    Registry.standard.registerNode env id w = h.register env id n w := by
  simp only [Registry.registerNode, Build.bind_apply, Build.get_apply, hn, hh]

/-- A node that makes a term for each data output and binds the output to it: the terms are there at the
end, and so are the bindings, unless two outputs have the same position. -/
theorem registerTerms_makes {slots : TermKind → String → PinType → Prop}
    {Q : UInt16 × Port → Term → Prop} {make : UInt16 × Port → Build TermId} {rest : Build Unit}
    {id : NodeId} (ht : w.terms.Orderly)
    (hv : (w.registerTerms .standard env true).hasErrors = false) (hn : w.graph.node? id = some n)
    (hearly : Registry.standard.isEarly n = true)
    (hrun : ∀ v : Working, v.graph.node? id = some n → Registry.standard.registerNode env id v =
      (((n.portsWhere .data .output).forM fun p => make p >>= Build.bind ⟨id, p.1⟩) >>=
        fun _ => rest) v)
    (hmakes : ∀ q ∈ n.portsWhere .data .output, Build.Makes slots (Q q) (make q))
    (hrest : Build.Respects (Registers (fun _ => False) slots) rest)
    (hQ : ∀ q a b, a.Alike b → Q q a → Q q b) (hp : p ∈ n.portsWhere .data .output) :
    (∃ i a, (w.registerTerms .standard env true).terms.get? i = some a ∧ Q p a) ∧
      (((n.portsWhere .data .output).map Prod.fst).Nodup →
        (w.registerTerms .standard env true).terms.Binds ⟨id, p.1⟩ (Q p)) := by
  obtain ⟨v, _, hbefore, hafter⟩ := registerTerms_at env hn hearly
  rw [hrun v (hbefore.graph ▸ hn), Build.bind_apply] at hafter
  generalize hports : ((n.portsWhere .data .output).forM fun p => make p >>= Build.bind ⟨id, p.1⟩)
    v = r at hafter
  have hrest := hrest r.2
  have hthen := hafter.toFrame.hasErrors hv
  have hmade := Build.forM_bind_registers id (fun q hq => (hmakes q hq).registers) v
  rw [hports] at hmade
  have hv' := hrest.toFrame.hasErrors hthen
  have htv := TermTable.Changes.orderly (hbefore.terms (hmade.toFrame.hasErrors hv')) ht
  have htr := TermTable.Changes.orderly (hmade.terms hv') htv
  have htrest := TermTable.Changes.orderly (hrest.terms hthen) htr
  obtain ⟨hterm, hbound⟩ := Build.forM_bind_makes hmakes hQ htv (hports ▸ hv') hp
  rw [hports] at hterm hbound
  constructor
  · obtain ⟨i, a, hi, ha⟩ := hterm
    obtain ⟨b, hb, hab⟩ := (TermTable.Changes.keeps (hrest.terms hthen) htr).old hi
    obtain ⟨c, hc, hbc⟩ := (TermTable.Changes.keeps (hafter.terms hv) htrest).old hb
    exact ⟨i, c, hc, hQ p b c hbc (hQ p a b hab ha)⟩
  · intro hnodup
    have hstill := (hbound hnodup).changes (hQ p) htr (hrest.terms hthen) fun h => h
    exact hstill.changes (hQ p) htrest (hafter.terms hv) fun hne => hne rfl

theorem registerTerms_event {id : NodeId} {spec : EventSpec} (ht : w.terms.Orderly)
    (hv : (w.registerTerms .standard env true).hasErrors = false) (hn : w.graph.node? id = some n)
    (hk : n.kind = .event spec) (hp : p ∈ n.portsWhere .data .output) :
    (∃ i a, (w.registerTerms .standard env true).terms.get? i = some a ∧
      a.kind = .persistentFrame ∧ a.name = slotName spec.name p.2.name) ∧
    (((n.portsWhere .data .output).map Prod.fst).Nodup →
      (w.registerTerms .standard env true).terms.Binds ⟨id, p.1⟩ fun a =>
      a.kind = .persistentFrame ∧ a.name = slotName spec.name p.2.name) := by
  have hh : Registry.standard.handler? n = some Handler.event := by rw [Handler.handler?_standard, hk]
  have hearly : Registry.standard.isEarly n = true := by rw [Registry.isEarly, hh]; rfl
  have hmakes (q : UInt16 × Port) (_ : q ∈ n.portsWhere .data .output) : Build.Makes (fun _ _ _ => True)
      (fun a => a.kind = .persistentFrame ∧ a.name = slotName spec.name q.2.name)
      (Build.classSlot .persistentFrame (slotName spec.name q.2.name) q.2.type id) :=
    Build.classSlot_makes rfl trivial id
  have hrest : Build.Respects (Registers (fun _ => False) fun _ _ _ => True)
      (pure () : Build Unit) := .pure _
  refine registerTerms_makes ht hv hn hearly (fun v hn => ?_) hmakes hrest ?_ hp
  · rw [registerNode_eq hn hh, Handler.event]
    simp only [hk]
    rfl
  · exact fun q a b hab ha => ⟨hab.kind.trans ha.1, (hab.name (ha.1 ▸ rfl)).trans ha.2⟩

theorem registerTerms_entry {id : NodeId} {spec : EntrySpec} (ht : w.terms.Orderly)
    (hv : (w.registerTerms .standard env true).hasErrors = false) (hn : w.graph.node? id = some n)
    (hk : n.kind = .functionEntry spec) (hfew : n.ports.length ≤ 65536)
    (hp : p ∈ n.portsWhere .data .output) :
    (w.registerTerms .standard env true).terms.Binds ⟨id, p.1⟩ fun a =>
      a.kind = .parameter ∧ a.declared = p.2.name ∧ a.type = p.2.type := by
  have hh : Registry.standard.handler? n = some Handler.functionEntry := by
    rw [Handler.handler?_standard, hk]
  have hearly : Registry.standard.isEarly n = true := by rw [Registry.isEarly, hh]; rfl
  have hlocals : Build.Respects (Registers (fun _ => False) fun _ _ _ => False)
      (spec.locals.forM fun l => do
      let _ ← Build.onTerms fun t => t.addLocal l.name l.type l.default) :=
    .forM (fun l => .bind (Build.addLocal_registers _ _ _) fun _ => .pure _) _
  have hmakes (q : UInt16 × Port) (_ : q ∈ n.portsWhere .data .output) : Build.Makes (fun _ _ _ => False)
      (fun a => a.kind = .parameter ∧ a.declared = q.2.name ∧ a.type = q.2.type)
      (Build.onTerms fun t => t.add .parameter q.2.name q.2.type) := Build.add_makes rfl _ _
  refine (registerTerms_makes ht hv hn hearly (fun v hn => ?_) hmakes hlocals ?_ hp).2
    (n.nodup_portsWhere hfew .data .output)
  · rw [registerNode_eq hn hh, Handler.functionEntry]
    simp only [hk]
  · exact fun q a b hab ha => ⟨hab.kind.trans ha.1, hab.declared.trans ha.2.1, hab.type.trans ha.2.2⟩

end Working

end VisualScript
