import VisualScript.Proofs.Event.Stub

namespace VisualScript

namespace Build

open Working

theorem emit_plain {env : Env} (hdebug : env.options.debugInstrumentation = false)
    (hcomments : env.options.emitNodeComments = false) (r : Registry) (id : NodeId) (w : Working) :
    emit r env id w = ((r.emitNode env id w).1.map fun s => (id, s), (r.emitNode env id w).2) := by
  simp only [emit, hdebug, hcomments, bind_apply, get_apply, pure_apply]
  rfl

def store (id : NodeId) (p : UInt16 × Port) : Build Statement := do
  let dest ← classSlot .persistentFrame p.2.name p.2.type id
  return .assign dest (← inputTerm ⟨id, p.1⟩)

theorem store_registers (id : NodeId) (p : UInt16 × Port) :
    Respects (Registers (fun _ => False) fun _ _ _ => True) (store id p) :=
  .bind (classSlot_registers trivial id) fun _ => .bind (inputTerm_registers _) fun _ => .pure _

theorem Registers.source? {slots : TermKind → String → PinType → Prop} {w w' : Working}
    (h : Registers (fun _ => False) slots w w') (ht : w.terms.Orderly) (hv : w'.hasErrors = false)
    (p : PortRef) : w'.source? p = w.source? p := by
  have hnets : w'.terms.net? = w.terms.net? := funext fun q => TermTable.Changes.net? (h.terms hv) ht id
  rw [Working.source?, h.graph, hnets, Working.source?]

/-- A store goes to the slot of the name of an input, and comes from what feeds the input. -/
def Stored (w w' : Working) (id : NodeId) (p : UInt16 × Port) (s : Statement) : Prop :=
  ∃ dest src, s = .assign dest src ∧
    (∃ a, w'.terms.get? dest = some a ∧ a.kind = .persistentFrame ∧ a.name = p.2.name) ∧
    ∀ t, w.source? ⟨id, p.1⟩ = some t → src = t

theorem store_stored (id : NodeId) (p : UInt16 × Port) {w : Working} (ht : w.terms.Orderly)
    (hv : (store id p w).2.hasErrors = false) : Stored w (store id p w).2 id p (store id p w).1 := by
  have hmakes : Makes (fun _ _ _ => True) (fun a => a.kind = .persistentFrame ∧ a.name = p.2.name)
      (classSlot .persistentFrame p.2.name p.2.type id) := classSlot_makes rfl trivial id
  have hslot := hmakes.registers w
  have hterm := hmakes.term w ht
  have hrun : store id p w = (.assign (classSlot .persistentFrame p.2.name p.2.type id w).1
      (inputTerm ⟨id, p.1⟩ (classSlot .persistentFrame p.2.name p.2.type id w).2).1,
      (inputTerm ⟨id, p.1⟩ (classSlot .persistentFrame p.2.name p.2.type id w).2).2) := rfl
  rw [hrun] at hv ⊢
  generalize classSlot .persistentFrame p.2.name p.2.type id w = r at hslot hterm hv
  have hinput : Registers (fun _ => False) (fun _ _ _ => True) r.2 (inputTerm ⟨id, p.1⟩ r.2).2 :=
    inputTerm_registers _ _
  have hthen := hinput.toFrame.hasErrors hv
  refine ⟨_, _, rfl, ?_, fun t hsource => ?_⟩
  · obtain ⟨a, ha, hkind, hname⟩ := hterm hthen
    obtain ⟨b, hb, hab⟩ := (TermTable.Changes.keeps (hinput.terms hv)
      (TermTable.Changes.orderly (hslot.terms hthen) ht)).old ha
    exact ⟨b, hb, hab.kind.trans hkind, (hab.name (hkind ▸ rfl)).trans hname⟩
  · rw [← Registers.source? hslot ht hthen] at hsource
    rw [inputTerm_of_source hsource]

theorem mapM_store {id : NodeId} {ports : List (UInt16 × Port)} {w : Working} (ht : w.terms.Orderly)
    (hv : (ports.mapM (store id) w).2.hasErrors = false) :
    List.Forall₂ (Stored w (ports.mapM (store id) w).2 id) ports (ports.mapM (store id) w).1 := by
  induction ports generalizing w with
  | nil => exact .nil
  | cons p rest ih =>
      rw [mapM_cons] at hv ⊢
      have hstore := store_registers id p w
      have hrest := Respects.mapM (store_registers id) rest (store id p w).2
      have hthen := hrest.toFrame.hasErrors hv
      have ht' := TermTable.Changes.orderly (hstore.terms hthen) ht
      have hkeeps := TermTable.Changes.keeps (hrest.terms hv) ht'
      refine .cons ?_ ((ih ht' hv).imp fun q s hs => ?_)
      · obtain ⟨dest, src, he, ⟨a, ha, hkind, hname⟩, hsrc⟩ := store_stored id p ht hthen
        obtain ⟨b, hb, hab⟩ := hkeeps.old ha
        exact ⟨dest, src, he, ⟨b, hb, hab.kind.trans hkind, (hab.name (hkind ▸ rfl)).trans hname⟩, hsrc⟩
      · obtain ⟨dest, src, he, hdest, hsrc⟩ := hs
        exact ⟨dest, src, he, hdest,
          fun t hsource => hsrc t ((Registers.source? hstore ht hthen _).trans hsource)⟩

end Build

theorem Statement.mapTarget_of_none {s : Statement} (h : s.target? = none)
    (f : JumpTarget → JumpTarget) : s.mapTarget f = s := by
  cases s <;> first | rfl | cases h

namespace EventInfo

variable (info : EventInfo) {i : Nat}

theorem portsWhere_stubAssign : info.stubAssign.portsWhere .data .input =
    info.params.zipIdx.map fun p => (UInt16.ofNat (2 + p.2),
      Port.dataIn (slotName info.spec.name p.1.name) p.1.type) := by
  refine Node.portsWhere_append (n := info.stubAssign)
    (f := fun p : Param => .dataIn (slotName info.spec.name p.name) p.type)
    (show _ = [Port.execIn "exec", Port.execOut "then"] ++ _ from rfl) ?_ fun _ => rfl
  decide

theorem portsWhere_stubEntry : info.stubEntry.portsWhere .data .output =
    info.params.zipIdx.map fun p => (UInt16.ofNat (1 + p.2), Port.dataOut p.1.name p.1.type) := by
  refine Node.portsWhere_append (n := info.stubEntry) (f := fun p : Param => .dataOut p.name p.type)
    (show _ = [Port.execOut "then"] ++ _ from rfl) ?_ fun _ => rfl
  decide

section Few

variable (hfew : info.params.length < 65534) (hi : i < info.params.length)

include hfew hi

theorem fits_data : Fits info.stubBase (⟨0, UInt16.ofNat (1 + i)⟩, ⟨1, UInt16.ofNat (2 + i)⟩) .data := by
  have hsource : (UInt16.ofNat (1 + i)).toNat = i + 1 := by
    rw [UInt16.toNat_ofNat']
    omega
  have htarget : (UInt16.ofNat (2 + i)).toNat = i + 1 + 1 := by
    rw [UInt16.toNat_ofNat']
    omega
  refine ⟨?_, ?_, Nat.zero_ne_one⟩
  · rw [Graph.port?, node?_stubBase]
    show (info.stubEntry.ports[(UInt16.ofNat (1 + i)).toNat]?).any _ = true
    rw [hsource, stubEntry, List.getElem?_cons_succ, List.getElem?_map, List.getElem?_eq_getElem hi]
    rfl
  · rw [Graph.port?, node?_stubBase]
    show ((Port.execIn "exec" :: Port.execOut "then" ::
      info.params.map _)[(UInt16.ofNat (2 + i)).toNat]?).any _ = true
    rw [htarget, List.getElem?_cons_succ, List.getElem?_cons_succ, List.getElem?_map,
      List.getElem?_eq_getElem hi]
    rfl

theorem farEnds_stub :
    (info.stub.graph.farEnds ⟨1, UInt16.ofNat (2 + i)⟩).head? = some ⟨0, UInt16.ofNat (1 + i)⟩ := by
  have hfits := info.fits_data hfew hi
  have hlink : (⟨⟨0, UInt16.ofNat (1 + i)⟩, ⟨1, UInt16.ofNat (2 + i)⟩⟩ :
      PortRef × PortRef) ∈ info.stubLinks := by
    refine List.mem_append_right _ (List.mem_map.mpr ⟨i, List.mem_range.mpr ?_, rfl⟩)
    rw [Nat.mod_eq_of_lt (by omega)]
    exact hi
  have hlinked : info.stub.graph.Linked ⟨0, UInt16.ofNat (1 + i)⟩ ⟨1, UInt16.ofNat (2 + i)⟩ := by
    rw [stub_graph]
    exact linked_foldl_link info.tidy_stubBase hlink hfits
  have htarget := hfits.target
  rw [Option.any_eq_true] at htarget
  obtain ⟨p, hp, his⟩ := htarget
  have hslots : info.stub.graph.slots = info.stubBase.slots := by rw [stub_graph, foldl_link_slots]
  have hp' : info.stub.graph.port? ⟨1, UInt16.ofNat (2 + i)⟩ = some p :=
    (Graph.port?_congr hslots _).trans hp
  have hmem (a : PortRef) : a ∈ info.stub.graph.farEnds ⟨1, UInt16.ofNat (2 + i)⟩ ↔
    info.stub.graph.Linked a ⟨1, UInt16.ofNat (2 + i)⟩ :=
    Graph.mem_farEnds_input info.endures_stub.tidy.unthreaded hp'
      (by simpa [Port.is] using (Bool.and_eq_true_iff.mp his).2)
  cases hfar : (info.stub.graph.farEnds ⟨1, UInt16.ofNat (2 + i)⟩).head? with
  | none =>
      have hnone := (hmem _).mpr hlinked
      rw [List.head?_eq_none_iff.mp hfar] at hnone
      cases hnone
  | some a =>
      obtain ⟨x, hx, rfl, htarget⟩ := (hmem a).mp (List.mem_of_head? hfar)
      have hstub := (info.mem_stub_links hx).1
      rw [htarget] at hstub
      -- Of all the links of a stub, only that of the parameter leads to this input.
      have hindex (j : Nat) (hj : j < 65536) (he : UInt16.ofNat j = UInt16.ofNat (2 + i)) : j = 2 + i := by
        have he := congrArg UInt16.toNat he
        rw [UInt16.toNat_ofNat', UInt16.toNat_ofNat'] at he
        omega
      rcases List.mem_append.mp hstub with hstub | hstub
      · simp only [List.mem_cons, Prod.mk.injEq, PortRef.mk.injEq, List.not_mem_nil, or_false] at hstub
        rcases hstub with ⟨_, _, he⟩ | ⟨_, he, _⟩ | ⟨_, he, _⟩
        · have hzero := hindex 0 (by omega) he.symm
          omega
        · cases he
        · cases he
      · obtain ⟨j, hj, he⟩ := List.mem_map.mp hstub
        rw [List.mem_range, Nat.mod_eq_of_lt (by omega)] at hj
        have hij := hindex (2 + j) (by omega) (PortRef.mk.inj (congrArg Prod.snd he)).2
        obtain rfl : j = i := by omega
        exact congrArg some (congrArg Prod.fst he).symm

end Few

section Code

variable {env : Env} {w : Working}

def storing : Build (List Statement) := (info.stubAssign.portsWhere .data .input).mapM (Build.store 1)

theorem storing_registers (w : Working) :
    Working.Registers (fun _ => False) (fun _ _ _ => True) w (info.storing w).2 :=
  Build.Respects.mapM (Build.store_registers 1) _ w

variable (env) (hw : w.graph = info.stub.graph)

include hw

theorem emit_stubEntry : Registry.standard.emitNode env 0 w = ([.goto (.node 1)], w) := by
  have hn : w.graph.node? 0 = some info.stubEntry := hw ▸ info.node?_stub 0
  have hrun : Registry.standard.emitNode env 0 w = ([w.followJump 0 "then"], w) :=
    Registry.emitNode_eq (h := Handler.functionEntry) hn rfl
  rw [hrun, Working.followJump, info.follow_stub hw (by decide)]
  rfl

theorem emit_stubAssign :
    Registry.standard.emitNode env 1 w =
      ((info.storing w).1 ++ [.goto (.node 2)], (info.storing w).2) := by
  have hn : w.graph.node? 1 = some { info.stubAssign with order := 1 } := hw ▸ info.node?_stub 1
  have hrun : Registry.standard.emitNode env 1 w =
      ((info.storing w).1 ++ [(info.storing w).2.followJump 1 "then"], (info.storing w).2) :=
    (Registry.emitNode_eq (h := Handler.persistentFrameAssign) hn rfl).trans rfl
  rw [hrun, Working.followJump, info.follow_stub ((info.storing_registers w).graph.trans hw) (by decide)]
  rfl

theorem emit_stubCall : Registry.standard.emitNode env 2 w =
    ([.callEventGraph env.schema.eventGraphFunction info.spec.name none, .goto (.node 3)], w) := by
  have hn : w.graph.node? 2 = some { ScriptNode.callEventGraph info.spec.name with order := 2 } :=
    hw ▸ info.node?_stub 2
  have hrun : Registry.standard.emitNode env 2 w =
      ([.callEventGraph env.schema.eventGraphFunction info.spec.name none, w.followJump 2 "then"], w) :=
    Registry.emitNode_eq (h := Handler.callEventGraph) hn rfl
  rw [hrun, Working.followJump, info.follow_stub hw (by decide)]
  rfl

theorem emit_stubResult : Registry.standard.emitNode env 3 w = ([.ret], w) :=
  Registry.emitNode_eq (h := Handler.functionResult) (n := { ScriptNode.result with order := 3 })
    (hw ▸ info.node?_stub 3) rfl

theorem blocks_stub (hdebug : env.options.debugInstrumentation = false)
    (hcomments : env.options.emitNodeComments = false) {s : Schedule}
    (hs : w.schedule .standard = .ok s) : Build.blocks .standard env s w =
      ([⟨0, [(0, .goto (.node 1))]⟩,
        ⟨1, ((info.storing w).1 ++ [Statement.goto (.node 2)]).map fun s => (1, s)⟩,
        ⟨2, [(2, .callEventGraph env.schema.eventGraphFunction info.spec.name none),
          (2, .goto (.node 3))]⟩, ⟨3, [(3, .ret)]⟩],
        (info.storing w).2) := by
  obtain ⟨hlinear, hprelude⟩ := info.schedule_stub hw hs
  have hblock (k : NodeId) (v : Working) : Build.block .standard env s k v =
      (⟨k, (Registry.standard.emitNode env k v).1.map fun s => (k, s)⟩,
        (Registry.standard.emitNode env k v).2) := by
    rw [Build.block_eq, hprelude, Build.emit_plain hdebug hcomments]
    rfl
  have hstored : (info.storing w).2.graph = info.stub.graph := (info.storing_registers w).graph.trans hw
  rw [Build.blocks, hlinear]
  simp only [Build.mapM_cons, hblock, info.emit_stubEntry env hw, info.emit_stubAssign env hw,
    info.emit_stubCall env hstored,
    info.emit_stubResult env hstored]
  rfl

end Code

theorem link_stub {stores : List Statement} (hstores : ∀ s ∈ stores, s.target? = none) (function : String)
    (originOf : NodeId → Option Origin) :
    (Body.link [⟨0, [(0, .goto (.node 1))]⟩,
      ⟨1, (stores ++ [Statement.goto (.node 2)]).map fun s => (1, s)⟩,
        ⟨2, [(2, .callEventGraph function info.spec.name none), (2, .goto (.node 3))]⟩,
        ⟨3, [(3, .ret)]⟩] originOf).statements =
      stores ++ [.callEventGraph function info.spec.name none, .ret] := by
  have hfall : Block.fallThrough [⟨0, [(0, .goto (.node 1))]⟩,
      ⟨1, (stores ++ [Statement.goto (.node 2)]).map fun s => (1, s)⟩,
        ⟨2, [(2, .callEventGraph function info.spec.name none), (2, .goto (.node 3))]⟩, ⟨3, [(3, .ret)]⟩] =
      [⟨0, []⟩, ⟨1, stores.map fun s => (1, s)⟩,
        ⟨2, [(2, .callEventGraph function info.spec.name none)]⟩, ⟨3, [(3, .ret)]⟩] := by
    simp [Block.fallThrough, Block.lastIsGotoTo]
  have hmap (f : JumpTarget → JumpTarget) : stores.map (Statement.mapTarget f) = stores :=
    (List.map_congr_left fun s hs => Statement.mapTarget_of_none (hstores s hs) f).trans (List.map_id _)
  rw [Body.link, hfall]
  simp only [List.flatMap_cons, List.nil_append, List.map_append, List.map_map]
  exact congrArg (· ++ [Statement.callEventGraph function info.spec.name none, .ret]) (hmap _)

section Stores

variable {w : Working} (ht : w.terms.Orderly) (hv : (info.storing w).2.hasErrors = false)

include ht hv

theorem stores_stored :
    List.Forall₂ (fun p s => Build.Stored w (info.storing w).2 1 (UInt16.ofNat (2 + p.2),
    Port.dataIn (slotName info.spec.name p.1.name) p.1.type) s) info.params.zipIdx (info.storing w).1 := by
  have hrun : info.storing = (info.params.zipIdx.map fun p => (UInt16.ofNat (2 + p.2),
      Port.dataIn (slotName info.spec.name p.1.name) p.1.type)).mapM (Build.store 1) := by
    rw [storing, portsWhere_stubAssign]
  rw [hrun] at hv ⊢
  exact List.forall₂_map_left_iff.mp (Build.mapM_store ht hv)

theorem length_stores : (info.storing w).1.length = info.params.length := by
  rw [← (info.stores_stored ht hv).length_eq, List.length_zipIdx]

theorem getElem?_stores {p : Param} (hp : info.params[i]? = some p) : ∃ dest src,
    (info.storing w).1[i]? = some (.assign dest src) ∧
    (∃ a, (info.storing w).2.terms.get? dest = some a ∧ a.kind = .persistentFrame ∧
      a.name = slotName info.spec.name p.name) ∧
    ∀ t, w.source? ⟨1, UInt16.ofNat (2 + i)⟩ = some t → src = t := by
  have hz : info.params.zipIdx[i]? = some (p, i) := by
    rw [List.getElem?_zipIdx, hp, Option.map_some, Nat.zero_add]
  obtain ⟨hi, _⟩ := List.getElem?_eq_some_iff.mp hp
  have hs : i < (info.storing w).1.length := by rwa [info.length_stores ht hv]
  obtain ⟨dest, src, he, hdest, hsrc⟩ := (List.forall₂_iff_get.mp (info.stores_stored ht hv)).2 i
    (by rwa [List.length_zipIdx]) hs
  rw [List.get_eq_getElem, (List.getElem?_eq_some_iff.mp hz).2] at hdest hsrc
  exact ⟨dest, src, List.getElem?_eq_some_iff.mpr ⟨hs, he⟩, hdest, hsrc⟩

theorem mem_stores {s : Statement} (hs : s ∈ (info.storing w).1) : ∃ dest src, s = .assign dest src := by
  obtain ⟨i, hi⟩ := List.mem_iff_getElem?.mp hs
  have hlt : i < info.params.length := info.length_stores ht hv ▸ (List.getElem?_eq_some_iff.mp hi).1
  obtain ⟨dest, src, he, _⟩ := info.getElem?_stores ht hv (List.getElem?_eq_getElem hlt)
  exact ⟨dest, src, Option.some.inj (hi.symm.trans he)⟩

end Stores

theorem statements_stub {w : Working} (hw : w.graph = info.stub.graph) (ht : w.terms.Orderly)
    {env : Env} (hdebug : env.options.debugInstrumentation = false)
    (hcomments : env.options.emitNodeComments = false) {s : Schedule}
    (hs : w.schedule .standard = .ok s) (hv : (Build.blocks .standard env s w).2.hasErrors = false)
    (originOf : NodeId → Option Origin) :
    (Build.blocks .standard env s w).2 = (info.storing w).2 ∧
      (Body.link (Build.blocks .standard env s w).1 originOf).statements =
      (info.storing w).1 ++ [.callEventGraph env.schema.eventGraphFunction info.spec.name none, .ret] := by
  rw [info.blocks_stub env hw hdebug hcomments hs] at hv ⊢
  refine ⟨rfl, info.link_stub (fun s hmem => ?_) _ originOf⟩
  obtain ⟨dest, src, rfl⟩ := info.mem_stores ht hv hmem
  rfl

def IsParameter (p : Param) (a : Term) : Prop :=
  a.kind = .parameter ∧ a.declared = p.name ∧ a.type = p.type

/-- The parameters of a stub go to their slots, in port order. -/
structure Forwards (info : EventInfo) (t : TermTable) (stores : List Statement) : Prop where
  length : stores.length = info.params.length
  store : ∀ {i : Nat} {p : Param}, info.params[i]? = some p →
    ∃ dest src, stores[i]? = some (.assign dest src) ∧
    (∃ a, t.get? dest = some a ∧ a.kind = .persistentFrame ∧ a.name = slotName info.spec.name p.name) ∧
    t.net? ⟨0, UInt16.ofNat (1 + i)⟩ = some src ∧ ∃ a, t.get? src = some a ∧ IsParameter p a

theorem storing_forwards {w : Working} (hw : w.graph = info.stub.graph) (ht : w.terms.Orderly)
    (hv : (info.storing w).2.hasErrors = false) (hfew : info.params.length < 65534)
    (hentry : ∀ {i : Nat} {p : Param}, info.params[i]? = some p →
      w.terms.Binds ⟨0, UInt16.ofNat (1 + i)⟩ (IsParameter p)) :
    info.Forwards (info.storing w).2.terms (info.storing w).1 := by
  refine ⟨info.length_stores ht hv, fun {i p} hp => ?_⟩
  obtain ⟨dest, src, hs, hdest, hsrc⟩ := info.getElem?_stores ht hv hp
  obtain ⟨t, a, hnet, ha, hparam⟩ := hentry hp
  have hsource : w.source? ⟨1, UInt16.ofNat (2 + i)⟩ = some t := by
    rw [Working.source?, hw, info.farEnds_stub hfew (List.getElem?_eq_some_iff.mp hp).1]
    exact hnet
  obtain rfl := hsrc t hsource
  have hchanges := (info.storing_registers w).terms hv
  obtain ⟨b, hb, hab⟩ := (TermTable.Changes.keeps hchanges ht).old ha
  refine ⟨dest, src, hs, hdest, (TermTable.Changes.net? hchanges ht id).trans hnet, b, hb, ?_⟩
  exact ⟨hab.kind.trans hparam.1, hab.declared.trans hparam.2.1, hab.type.trans hparam.2.2⟩

end EventInfo

namespace Job

variable (info : EventInfo) {env : Env} {u : CompilationUnit}

theorem ofEvent_graph :
    (ofEvent info).work.graph = info.stub.graph := by simp only [ofEvent, Working.ofGraph]

theorem ofEvent_orderly : (ofEvent info).work.terms.Orderly := by
  have hempty : (ofEvent info).work.terms = {} := by simp only [ofEvent, Working.ofGraph]
  exact hempty ▸ TermTable.orderly_empty

theorem validateEntries_ofEvent : (ofEvent info).work.validateEntries.graph = info.stub.graph :=
  (Working.noted_validateEntries _).graph.trans (ofEvent_graph info)

theorem pruned_ofEvent : (ofEvent info).pruned env u = info.stub.graph :=
  info.pruned_stub ((registerSignature_frame env u _).graph.trans (validateEntries_ofEvent info))
    env u.macros

variable (hv : ((ofEvent info).prepared env u).work.hasErrors = false)

include hv

theorem graph_ofEvent : ((ofEvent info).prepared env u).work.graph = info.stub.graph := by
  obtain ⟨_, _, hgraph, _⟩ := precompile_registers hv (ofEvent_orderly info)
  exact hgraph.trans (pruned_ofEvent info)

theorem binds_ofEvent (hfew : info.params.length < 65534) {i : Nat} {p : Param}
    (hp : info.params[i]? = some p) :
    ((ofEvent info).prepared env u).work.terms.Binds ⟨0, UInt16.ofNat (1 + i)⟩
      (EventInfo.IsParameter p) := by
  have horderly := ofEvent_orderly info
  have hnode : (ofEvent info).work.validateEntries.graph.node? 0 = some info.stubEntry :=
    validateEntries_ofEvent info ▸ info.node?_stub 0
  have hports : info.stubEntry.ports.length ≤ 65536 := by
    rw [EventInfo.stubEntry, List.length_cons, List.length_map]
    omega
  have hmem : (UInt16.ofNat (1 + i), Port.dataOut p.name p.type) ∈ info.stubEntry.portsWhere .data
      .output := by
    rw [EventInfo.portsWhere_stubEntry]
    refine List.mem_map.mpr ⟨(p, i), List.mem_zipIdx_iff_getElem?.mpr hp, rfl⟩
  have hbound := Working.registerTerms_entry
    ((Working.noted_validateEntries (ofEvent info).work).terms ▸ horderly)
    (precompile_registers hv horderly).1 hnode rfl hports hmem
  have hpruned : ((ofEvent info).pruned env u).node? 0 = some info.stubEntry :=
    pruned_ofEvent info ▸ info.node?_stub 0
  refine binds_prepared hv horderly hpruned rfl ?_ hbound
  intro a b hab ha
  exact ⟨hab.kind.trans ha.1, hab.declared.trans ha.2.1, hab.type.trans ha.2.2⟩

end Job

end VisualScript
