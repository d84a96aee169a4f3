import VisualScript.Proofs.Working.Retention

namespace VisualScript

namespace Node

variable {κ : Type}

def hasWildcard (n : Node κ) : Bool := n.ports.any fun p => p.type.isWildcard

def typed (n : Node κ) : Node κ := { n with ports := n.ports.map fun p => { p with default := none } }

theorem kind_eq_of_typed {n m : Node κ} (h : n.typed = m.typed) : n.kind = m.kind := by
  have hk := congrArg Node.kind h
  exact hk

theorem hasWildcard_typed (n : Node κ) : n.typed.hasWildcard = n.hasWildcard := by
  rw [hasWildcard, typed, List.any_map]
  rfl

theorem hasWildcard_eq_of_typed {n m : Node κ} (h : n.typed = m.typed) :
    n.hasWildcard = m.hasWildcard := by
  rw [← hasWildcard_typed, h, hasWildcard_typed]

end Node

namespace Graph

variable {κ : Type} {g g' g'' : Graph κ}

def SameTypes (g' g : Graph κ) : Prop := ∀ k, (g'.node? k).map Node.typed = (g.node? k).map Node.typed

theorem SameTypes.refl (g : Graph κ) : g.SameTypes g := fun _ => rfl

theorem SameTypes.trans (h : g''.SameTypes g') (h' : g'.SameTypes g) :
    g''.SameTypes g := fun k => (h k).trans (h' k)

theorem SameTypes.ofSlots (h : g'.slots = g.slots) : g'.SameTypes g := fun k => by rw [node?_congr h]

theorem SameTypes.node? (h : g'.SameTypes g) {k : NodeId} {n' : Node κ} (hn : g'.node? k = some n') :
    ∃ n, g.node? k = some n ∧ n.typed = n'.typed := by
  have hk := h k
  rw [hn] at hk
  exact Option.map_eq_some_iff.mp hk.symm

theorem SameTypes.symm (h : g'.SameTypes g) : g.SameTypes g' := fun k => (h k).symm

theorem sameTypes_setDefault (g : Graph κ) (p : PortRef) (value : Option String) :
    (g.setDefault p value).SameTypes g :=
  g.map_setDefault (fun _ _ => rfl) p value

end Graph

namespace Expansion

variable {site : NodeId} {env : Env} {macros : MacroLibrary} {w w' : Working} {m : ScriptNode}

structure Holds (k : NodeId) (n : ScriptNode) (w : Working) : Prop where
  tidy : w.graph.Tidy
  node : ∃ n', w.graph.node? k = some n' ∧ n'.typed = n.typed

variable {k : NodeId} {n : ScriptNode}

theorem Holds.sameTypes (h : Holds k n w) (htidy : w'.graph.Tidy)
    (hsame : w'.graph.SameTypes w.graph) : Holds k n w' := by
  obtain ⟨n', hn', ht⟩ := h.node
  obtain ⟨n'', hn'', ht'⟩ := hsame.symm.node? hn'
  exact ⟨htidy, n'', hn'', ht'.trans ht⟩

theorem Edit.holds (h : Edit site w w') (hw : Holds k n w) : Holds k n w' := by
  cases h with
  | report | inspect => exact ⟨hw.tidy, hw.node⟩
  | link a b l g h => exact hw.sameTypes (hw.tidy.connect h) (.ofSlots (Graph.connect_slots h))
  | unlink p => exact hw.sameTypes (hw.tidy.disconnect p) (.ofSlots (Graph.disconnect_slots _ p))
  | setDefault p value =>
      exact hw.sameTypes (hw.tidy.modifyNode _ _) (w.graph.sameTypes_setDefault p value)
  | synthesize m =>
      obtain ⟨n', hn', ht⟩ := hw.node
      refine ⟨hw.tidy.addNode m, n', ?_, ht⟩
      have hne : k ≠ (w.graph.addNode m).1 := by
        rintro rfl
        rw [hw.tidy.addNode_fresh] at hn'
        cases hn'
      exact (hw.tidy.node?_addNode m k).trans ((if_neg hne).trans hn')

theorem Edits.holds (h : Edits site w w') (hw : Holds k n w) : Holds k n w' := by
  induction h with
  | refl => exact hw
  | tail _ h ih => exact h.holds ih

theorem Holds.not_copy (h : Holds k n w) (body : ScriptGraph) : k ∉ (w.graph.merge body).1.copies := by
  obtain ⟨n', hn', -⟩ := h.node
  exact not_mem_copies body h.tidy hn'

theorem node?_resolvePorts_of_not_mem {g : ScriptGraph} (resolved : Option PinType)
    {ids : List NodeId} (hk : k ∉ ids) :
    (resolvePorts resolved ids g).node? k = g.node? k := by
  refine resolvePorts_induction (P := fun g' => g'.node? k = g.node? k) resolved rfl
    fun g' id hid f _ hg => ?_
  have hne : k ≠ id := fun he => hk (he ▸ hid)
  simp [Graph.node?_modifyNode, hne, hg]

theorem resolvedIn_holds (hw : Holds k n w) (id : NodeId) (body : ScriptGraph)
    (resolved : Option PinType) :
    Holds k n (resolvedIn w id body resolved) := by
  obtain ⟨n', hn', ht⟩ := hw.node
  have hk := hw.not_copy body
  refine ⟨(resolvePorts_kept resolved _ (hw.tidy.merge body)).1, n', ?_, ht⟩
  exact (node?_resolvePorts_of_not_mem resolved hk).trans ((hw.tidy.node?_merge body hk).trans hn')

theorem holds_invariant (hn : n.kind.isPlain = true) : Invariant (Holds k n) (· ≠ k) where
  edit := Edit.holds
  enter id body resolved hw := resolvedIn_holds hw id body resolved
  remove {w j} hw hj := by
    obtain ⟨n', hn', ht⟩ := hw.node
    exact ⟨hw.tidy.removeNode j, n',
      (Graph.node?_removeNode w.graph j k).trans ((if_neg (Ne.symm hj)).trans hn'), ht⟩
  copies {w body j} hw hj := fun he => hw.not_copy body (he ▸ hj)
  expanded {w j m} hw hm hj := by
    rintro rfl
    obtain ⟨n', hn', ht⟩ := hw.node
    cases hm.symm.trans hn'
    rw [Node.kind_eq_of_typed ht] at hj
    rcases hj with hj | hj <;> simp [NodeKind.isPlain, hj] at hn

theorem tidy_invariant : Invariant (fun w => w.graph.Tidy) fun _ => True where
  edit {site w w'} h hw := by
    cases h with
    | report | inspect => exact hw
    | link a b l g h => exact hw.connect h
    | unlink p => exact hw.disconnect p
    | setDefault p value => exact hw.modifyNode _ _
    | synthesize n => exact hw.addNode n
  enter id body resolved hw := (resolvePorts_kept resolved _ (hw.merge body)).1
  remove hw _ := hw.removeNode _
  copies _ _ := trivial
  expanded _ _ _ := trivial

/-- The function is kept up, and no tunnel waits that may not be dropped. -/
structure Loop.Keeps (P : Working → Prop) (drops : NodeId → Prop) (a : Loop) : Prop where
  work : P a.state.work
  tasks : ∀ id, .collapse id ∈ a.tasks → drops id

theorem Invariant.step {P : Working → Prop} {drops : NodeId → Prop} (h : Invariant P drops) {a b : Loop}
    (hs : Loop.Step env macros a b) (ha : a.Keeps P drops) : b.Keeps P drops := by
  cases hs with
  | perform x task rest =>
      refine ⟨?_, fun id hid => ha.tasks id (List.mem_cons_of_mem _ hid)⟩
      cases task with
      | expand id => exact h.expandInstance ha.work id
      | collapse id => exact h.collapseTunnel ha.work (ha.tasks id List.mem_cons_self)
  | round x =>
      refine ⟨ha.work, fun id hid => ?_⟩
      obtain ⟨_, n, hn, ⟨he, -⟩ | ⟨he, ht⟩⟩ := mem_agenda hid <;> cases he
      exact h.expanded ha.work hn (Or.inr ht)

theorem Loop.Runs.tidy {i : Nat} {a b : Loop} (h : Loop.Runs env macros i a b)
    (ha : a.state.work.graph.Tidy) :
    b.state.work.graph.Tidy := by
  induction h with
  | done => exact ha
  | step hs _ ih => exact ih (tidy_invariant.step hs ⟨ha, fun _ _ => trivial⟩).work

theorem Holds.typed_eq (h : Holds k n w) (hm : w.graph.node? k = some m) : m.typed = n.typed := by
  obtain ⟨n', hn', ht⟩ := h.node
  cases hm.symm.trans hn'
  exact ht

theorem expandInstance_typed {x : Expansion} (htidy : x.work.graph.Tidy)
    (hn : x.work.graph.node? k = some n) (id : NodeId)
    (hm : (expandInstance env macros x id).work.graph.node? k = some m) : m.typed = n.typed := by
  have hx : Holds k n x.work := ⟨htidy, n, hn, rfl⟩
  cases hh : x.halted with
  | true =>
      rw [expandInstance_halted x id hh] at hm
      exact hx.typed_eq hm
  | false =>
      rcases expandInstance_cases x id hh with
        ⟨he, -⟩ | ⟨-, issue, -, -, he⟩ | ⟨i, body, resolved, -, -, he⟩ <;> rw [he] at hm
      · exact hx.typed_eq hm
      · have hleft : (removeNodes (x.work.report issue (some id)) [id]).graph.node? k = some m := hm
        have hold : x.work.graph.node? k = some m :=
          Working.node?_removeNodes (w := x.work.report issue (some id)) hleft
        exact hx.typed_eq hold
      · rcases inline_cases env x id i body resolved with
          ⟨_, -, hi⟩ | ⟨_, _, hi⟩ | ⟨-, w, ids, -, hedits, hi, -⟩ <;> rw [hi] at hm
        · exact hx.typed_eq hm
        · exact (resolvedIn_holds hx id body none).typed_eq hm
        · exact (hedits.holds (resolvedIn_holds hx id body resolved)).typed_eq
            (Working.node?_removeNodes hm)

theorem collapseTunnel_typed {x : Expansion} (htidy : x.work.graph.Tidy)
    (hn : x.work.graph.node? k = some n) (id : NodeId)
    (hm : (collapseTunnel env x id).work.graph.node? k = some m) : m.typed = n.typed := by
  have hx : Holds k n x.work := ⟨htidy, n, hn, rfl⟩
  cases hi : x.work.graph.node? id with
  | none =>
      have he : collapseTunnel env x id = x := by simp [collapseTunnel, hi]
      rw [he] at hm
      exact hx.typed_eq hm
  | some i =>
      obtain ⟨w, hedits, he, -⟩ := collapseTunnel_cases env hi
      rw [he] at hm
      have hleft : (removeNodes w [id]).graph.node? k = some m := hm
      exact (hedits.holds hx).typed_eq (Working.node?_removeNodes hleft)

theorem Loop.Step.typed_eq {a b : Loop} (hs : Loop.Step env macros a b)
    (htidy : a.state.work.graph.Tidy) (hn : a.state.work.graph.node? k = some n)
    (hm : b.state.work.graph.node? k = some m) : m.typed = n.typed := by
  cases hs with
  | round =>
      cases hn.symm.trans hm
      rfl
  | perform x task =>
      cases task with
      | expand id => exact expandInstance_typed htidy hn id hm
      | collapse id => exact collapseTunnel_typed htidy hn id hm

def Concrete (resolved : Option PinType) : Prop := ∃ type, resolved = some type ∧ type.isWildcard = false

def Clean (old : NodeId → Prop) (g : ScriptGraph) : Prop :=
  ∀ k n, g.node? k = some n → ¬ old k → n.hasWildcard = false

variable {old : NodeId → Prop} {g g' : ScriptGraph} {x : Expansion}

theorem Clean.sameTypes (h : Clean old g) (hsame : g'.SameTypes g) : Clean old g' := by
  intro k n hn hk
  obtain ⟨m, hm, ht⟩ := hsame.node? hn
  rw [← Node.hasWildcard_eq_of_typed ht]
  exact h k m hm hk

theorem Clean.addNode (h : Clean old g) (hn : n.hasWildcard = false) : Clean old (g.addNode n).2 := by
  intro k m hm hk
  rcases Graph.addNode_cases g n k m hm with hm | ⟨-, rfl⟩
  · exact h k m hm hk
  · exact hn

theorem Clean.removeNodes (h : Clean old w.graph) (ids : List NodeId) :
    Clean old (removeNodes w ids).graph :=
  fun k n hn hk => h k n (Working.node?_removeNodes hn) hk

theorem rewire_sameTypes (w : Working) (source sink : PortRef) :
    (rewire w source sink).graph.SameTypes w.graph := by
  rw [rewire]
  split
  · next hc => exact .ofSlots (Graph.connect_slots hc)
  · exact .refl _

theorem rewireAll_sameTypes (w : Working) (sources sinks : List PortRef) :
    (rewireAll w sources sinks).graph.SameTypes w.graph :=
  List.foldlRecOn (motive := fun v : Working => v.graph.SameTypes w.graph) sources _ (.refl _)
    fun _ hv p _ =>
    List.foldlRecOn (motive := fun v : Working => v.graph.SameTypes w.graph) sinks _ hv fun v hv q _ =>
      (rewire_sameTypes v p q).trans hv

theorem setDefaults_sameTypes (g : ScriptGraph) (sinks : List PortRef) (value : Option String) :
    (sinks.foldl (fun g p => g.setDefault p value) g).SameTypes g :=
  List.foldlRecOn (motive := fun h : ScriptGraph => h.SameTypes g) sinks _ (.refl _) fun h hh p _ =>
    (h.sameTypes_setDefault p value).trans hh

theorem wire_clean (h : Clean old x.work.graph) (role : Role) (sources sinks : List PortRef)
    (boundary : Option BoundarySite) :
    Clean old (wire env x role sources sinks boundary site).work.graph := by
  unfold wire
  split
  · split
    · next mark _ =>
      have hadd : Clean old (x.synthesize (ScriptNode.tunnelBoundary mark) site).2.work.graph :=
        h.addNode rfl
      exact (hadd.sameTypes (rewireAll_sameTypes _ _ _)).sameTypes (rewireAll_sameTypes _ _ _)
    · exact h.sameTypes (rewireAll_sameTypes _ _ _)
  · exact h.sameTypes (rewireAll_sameTypes _ _ _)

theorem splice_clean (h : Clean old x.work.graph) (up down : PortRef) (boundary : Option BoundarySite) :
    Clean old (splice env x up down boundary site).work.graph := by
  rw [splice]
  cases x.work.graph.port? up with
  | none => exact h
  | some port =>
      have hcut : Clean old ((x.work.graph.disconnect up).disconnect down) :=
        (h.sameTypes (.ofSlots (Graph.disconnect_slots _ up))).sameTypes
          (.ofSlots (Graph.disconnect_slots _ down))
      simp only
      split
      · cases port.default with
        | none => exact hcut
        | some value => exact hcut.sameTypes (setDefaults_sameTypes _ _ _)
      · exact wire_clean hcut _ _ _ _

theorem joinPort_clean (s : Site) (h : Clean old x.work.graph) (p : UInt16 × Port) :
    Clean old (joinPort env s x p).work.graph := by
  unfold joinPort
  extract_lets outer inner
  split
  · exact splice_clean h _ _ _
  · exact splice_clean h _ _ _
  · split <;> exact h

theorem feeder?_hasWildcard {p : Port} {output : UInt16} (hp : p.type.isWildcard = false)
    (h : feeder? p = some (n, output)) :
    n.hasWildcard = false := by
  unfold feeder? at h
  split at h
  · cases h
    simpa [Node.hasWildcard, ScriptNode.makeArray, Port.dataOut, PinType.isWildcard] using hp
  · split at h
    · cases h
      rfl
    · cases h

theorem feedPort_clean (h : Clean old x.work.graph) (copy : NodeId) {p : UInt16 × Port}
    (hp : p.2.type.isWildcard = false) :
    Clean old (feedPort site copy x p).work.graph := by
  rw [feedPort]
  cases hf : feeder? p.2 with
  | none => exact h
  | some f =>
      have hadd : Clean old (x.synthesize f.1 site).2.work.graph := h.addNode (feeder?_hasWildcard hp hf)
      exact hadd.sameTypes (rewire_sameTypes _ _ _)

theorem feedCopy_clean (h : Clean old x.work.graph) {copy : NodeId} (hcopy : ¬ old copy) :
    Clean old (feedCopy site x copy).work.graph := by
  unfold feedCopy
  split
  · exact h
  · next n hn =>
    split
    · exact h
    · extract_lets inputs unlinked
      have hinspected : Clean old (inputs.foldl (fun x p => x.inspect ⟨copy, p.1⟩) x).work.graph := by
        rw [(foldl_inspect ..).1]
        exact h
      refine List.foldlRecOn (motive := fun x : Expansion => Clean old x.work.graph) unlinked _
        hinspected fun x hx p hp => ?_
      refine feedPort_clean hx copy ?_
      have hport : p.2 ∈ n.ports := by
        obtain ⟨q, hq, rfl⟩ := List.mem_map.mp (List.mem_of_mem_filter (List.mem_of_mem_filter hp))
        exact List.fst_mem_of_mem_zipIdx hq
      have hclean := List.any_eq_false.mp (h copy n hn hcopy) p.2 hport
      exact Bool.eq_false_iff.mpr hclean

theorem connectBody_clean {s : Site} {copies : List NodeId} (h : Clean old x.work.graph)
    (hcopies : ∀ k ∈ copies, ¬ old k) :
    Clean old (connectBody env x s copies).work.graph := by
  have hjoin := List.foldlRecOn (motive := fun x : Expansion => Clean old x.work.graph)
    s.node.indexed (joinPort env s) h
    fun _ hx p _ => joinPort_clean s hx p
  have hfeed := List.foldlRecOn (motive := fun x : Expansion => Clean old x.work.graph) copies
    (feedCopy s.id) hjoin
    fun _ hx k hk => feedCopy_clean hx (hcopies k hk)
  rw [connectBody]
  simp only [onWork, foldl_removeTunnel]
  exact (hfeed.removeNodes _).removeNodes [s.id]

/-- Where ports are resolved, a wildcard is left only if the type is one. -/
theorem hasWildcard_resolvePorts (type : PinType) (ids : List NodeId)
    (hm : (resolvePorts (some type) ids g).node? k = some m) :
    ∃ n, g.node? k = some n ∧ m.hasWildcard =
      (n.hasWildcard && (type.isWildcard || decide (k ∉ ids))) := by
  have hport (p : Port) : (p.type.resolve type).isWildcard = (p.type.isWildcard && type.isWildcard) := by
    rw [PinType.resolve]
    cases hp : p.type.isWildcard
    · exact hp
    · rfl
  have hresolve (n : ScriptNode) :
      (n.ports.map fun p => { p with type := p.type.resolve type }).any (fun p => p.type.isWildcard) =
        (n.hasWildcard && type.isWildcard) := by
    rw [List.any_map, Node.hasWildcard]
    induction n.ports with
    | nil => rfl
    | cons p rest ih =>
        rw [List.any_cons, List.any_cons, ih, Function.comp_apply, hport,
          ← Bool.and_or_distrib_right]
  simp only [resolvePorts] at hm
  induction ids generalizing g with
  | nil => exact ⟨m, hm, by simp⟩
  | cons id rest ih =>
      obtain ⟨n', hn', hw⟩ := ih hm
      rw [Graph.node?_modifyNode] at hn'
      obtain ⟨n, hn, rfl⟩ := Option.map_eq_some_iff.mp hn'
      refine ⟨n, hn, hw.trans ?_⟩
      by_cases hk : k = id
      · simp only [hk, if_true, Node.hasWildcard, hresolve]
        cases type.isWildcard <;> simp
      · simp [hk]

/-- The copies of a body have no wildcards if the type is concrete or if there are none in the body. -/
theorem resolvedIn_clean {id : NodeId} {body : ScriptGraph} {resolved : Option PinType}
    (h : Concrete resolved ∨ ∀ s n, body.node? s = some n → n.hasWildcard = false) :
    Clean (fun k => w.graph.contains k = true) (resolvedIn w id body resolved).graph := by
  intro k m hm hk
  have hcopied {n : ScriptNode} (hn : (w.graph.merge body).2.node? k = some n) :
      k ∈ (w.graph.merge body).1.copies ∧ ∃ s n', body.node? s = some n' ∧
        n.hasWildcard = n'.hasWildcard := by
    rcases Graph.merge_cases w.graph body k n hn with hold | ⟨s, n', hn', hs, he⟩
    · exact absurd (Graph.contains_iff.mpr ⟨n, hold⟩) hk
    · refine ⟨List.mem_map_of_mem hs, s, n', Graph.mem_nodes.mp hn', ?_⟩
      rw [he]
      rfl
  cases resolved with
  | none =>
      obtain ⟨-, s, n', hn', he⟩ := hcopied hm
      rcases h with ⟨type, htype, -⟩ | hbody
      · cases htype
      · exact he.trans (hbody s n' hn')
  | some type =>
      obtain ⟨n, hn, hw⟩ := hasWildcard_resolvePorts type _ hm
      obtain ⟨hcopy, s, n', hn', he⟩ := hcopied hn
      rw [hw]
      rcases h with ⟨_, htype, hconcrete⟩ | hbody
      · cases htype
        simp [hconcrete, hcopy]
      · rw [he, hbody s n' hn', Bool.false_and]

theorem expandInstance_clean {id : NodeId} {body : ScriptGraph} {resolved : Option PinType}
    (htidy : x.work.graph.Tidy) (hx : x.halted = false) (hn : x.work.graph.node? id = some n)
    (hb : body? macros n.kind = some (body, resolved))
    (h : Concrete resolved ∨ ∀ s n, body.node? s = some n → n.hasWildcard = false)
    (hh : (expandInstance env macros x id).halted = false) :
    Clean (fun k => x.work.graph.contains k = true) (expandInstance env macros x id).work.graph := by
  have hexpand : expandInstance env macros x id = inline env x id n body resolved := by
    simp [expandInstance, hx, hn, hb]
  rw [hexpand] at hh ⊢
  have hentered : Clean (fun k => x.work.graph.contains k = true)
      (resolvedIn x.work id body resolved).graph := resolvedIn_clean h
  obtain ⟨hd, hl⟩ := ceilings_of_inline hh
  rw [inline_eq env x id n body resolved hd hl]
  extract_lets copies inputs outputs
  split
  · exact Clean.removeNodes (w := (resolvedIn x.work id body resolved).report _ _) hentered _
  · refine connectBody_clean hentered fun k hk hold => ?_
    obtain ⟨m, hm⟩ := Graph.contains_iff.mp hold
    rw [htidy.merge_fresh body hk] at hm
    cases hm

namespace Loop

variable {a b c : Loop} {id j : NodeId} {body : ScriptGraph} {resolved : Option PinType}

/-- What is to be done next is to expand an instance of that body. -/
structure Expands (macros : MacroLibrary) (a : Loop) (id : NodeId) (body : ScriptGraph)
    (resolved : Option PinType) : Prop where
  task : ∃ rest, a.tasks = .expand id :: rest
  body : ∃ n, a.state.work.graph.node? id = some n ∧ body? macros n.kind = some (body, resolved)

/-- The step brings in the node. -/
structure Brings (env : Env) (macros : MacroLibrary) (a b : Loop) (k : NodeId) (n : ScriptNode) :
    Prop where
  step : Step env macros a b
  new : a.state.work.graph.node? k = none
  node : b.state.work.graph.node? k = some n

/-- The node was inlined through the instance that is expanded first: it came in then, or later in
the place of an instance that was inlined through it as well. -/
inductive Through (env : Env) (macros : MacroLibrary) (a : Loop) : Loop → NodeId → Prop
  | direct {b : Loop} {k : NodeId} {n : ScriptNode} (h : Brings env macros a b k n) :
      Through env macros a b k
  | kept {b c : Loop} {k : NodeId} {n : ScriptNode} (h : Through env macros a b k)
      (hs : Step env macros b c)
      (hn : c.state.work.graph.node? k = some n) : Through env macros a c k
  | nested {b c : Loop} {j k : NodeId} {n : ScriptNode} {body : ScriptGraph} {resolved : Option PinType}
      (h : Through env macros a b j) (hj : b.Expands macros j body resolved)
        (hk : Brings env macros b c k n) :
      Through env macros a c k

theorem Through.exists_node (h : Through env macros a b k) : ∃ n, b.state.work.graph.node? k = some n := by
  cases h with
  | direct h => exact ⟨_, h.node⟩
  | kept _ _ hn => exact ⟨_, hn⟩
  | nested _ _ h => exact ⟨_, h.node⟩

theorem Runs.snoc {i : Nat} (h : Runs env macros i a b) (hs : Step env macros b c) :
    Runs env macros (i + 1) a c :=
  h.trans (.step hs (.done c))

theorem Through.runs (h : Through env macros a b k) : ∃ i, Runs env macros i a b := by
  induction h with
  | direct h => exact ⟨1, .step h.step (.done _)⟩
  | kept _ hs _ ih =>
      obtain ⟨i, hr⟩ := ih
      exact ⟨i + 1, hr.snoc hs⟩
  | nested _ _ h ih =>
      obtain ⟨i, hr⟩ := ih
      exact ⟨i + 1, hr.snoc h.step⟩

theorem Runs.to_stuck {i m : Nat} (h : Runs env macros i a b) (hb : ∀ d, ¬ Step env macros b d)
    (h' : Runs env macros m a c) :
    ∃ l, Runs env macros l c b := by
  induction h' generalizing i with
  | done => exact ⟨i, h⟩
  | step hs _ ih =>
      cases h with
      | done => exact absurd hs (hb _)
      | step hs' hr =>
          cases step_unique hs hs'
          exact ih hr

theorem Runs.unhalted {i m : Nat} (h : Runs env macros i a b) (hb : ∀ d, ¬ Step env macros b d)
    (hlast : b.state.halted = false) (h' : Runs env macros m a c) : c.state.halted = false := by
  obtain ⟨l, hl⟩ := h.to_stuck hb h'
  cases hl with
  | done => exact hlast
  | step hs => exact Bool.eq_false_iff.mpr fun hh => not_step_of_halted hh _ hs

def Uniform (a : Loop) : Prop := (∀ id, .collapse id ∉ a.tasks) ∨ ∀ id, .expand id ∉ a.tasks

theorem Runs.uniform {i : Nat} (h : Runs env macros i a b) (ha : a.Uniform) : b.Uniform := by
  induction h with
  | done => exact ha
  | step hs _ ih =>
      refine ih ?_
      cases hs with
      | perform x task rest =>
          exact ha.imp (fun h id hid => h id (List.mem_cons_of_mem _ hid)) fun h id hid =>
            h id (List.mem_cons_of_mem _ hid)
      | round x =>
          rw [Uniform, agenda]
          split
          · right; simp
          · left; simp

theorem Expands.state_eq (h : a.Expands macros id body resolved) (hs : Step env macros a b) :
    a.state.halted = false ∧ b.state = expandInstance env macros a.state id ∧
      ∃ rest, a.tasks = .expand id :: rest ∧ b.tasks = rest := by
  obtain ⟨rest, htasks⟩ := h.task
  cases hs with
  | perform x task rest' hx =>
      cases htasks
      exact ⟨hx, rfl, rest, rfl, rfl⟩
  | round => cases htasks

theorem Expands.hasWildcard {n : ScriptNode} (h : a.Expands macros id body resolved)
    (htidy : a.state.work.graph.Tidy) (hk : a.Brings env macros b k n) (hb : b.state.halted = false)
    (hn : n.hasWildcard = true) :
    ¬ Concrete resolved ∧ ∃ s m, body.node? s = some m ∧ m.hasWildcard = true := by
  obtain ⟨ha, hstate, -⟩ := h.state_eq hk.step
  obtain ⟨i, hi, hbody⟩ := h.body
  have hnode := hk.node
  rw [hstate] at hb hnode
  have hwild : ¬ (Concrete resolved ∨ ∀ s m, body.node? s = some m → m.hasWildcard = false) := by
    intro hclean
    have hnew : ¬ a.state.work.graph.contains k = true := by
      rw [Graph.contains, hk.new]
      exact Bool.false_ne_true
    rw [expandInstance_clean htidy ha hi hbody hclean hb k n hnode hnew] at hn
    cases hn
  obtain ⟨hconcrete, hex⟩ := not_or.mp hwild
  push Not at hex
  obtain ⟨s, m, hm, hw⟩ := hex
  exact ⟨hconcrete, s, m, hm, Bool.not_eq_false _ ▸ hw⟩

theorem Through.lasts {l : Nat} {last : Loop} (h : Through env macros a c k)
    (hk : c.Keeps (Holds k n) (· ≠ k)) (hn : n.kind.isPlain = true)
    (hl : Runs env macros l c last) : Through env macros a last k ∧ Holds k n last.state.work := by
  induction hl with
  | done => exact ⟨h, hk.work⟩
  | step hs _ ih =>
      have hnext := (holds_invariant hn).step hs hk
      obtain ⟨n', hn', -⟩ := hnext.work.node
      exact ih (.kept h hs hn') hnext

theorem Expands.keeps {i : Nat} (h : b.Expands macros j body resolved) (hr : Runs env macros i (start w) b)
    (hk : b.Brings env macros c k n) (htidy : c.state.work.graph.Tidy) : c.Keeps (Holds k n) (· ≠ k) := by
  obtain ⟨-, -, rest, htasks, hrest⟩ := h.state_eq hk.step
  refine ⟨⟨htidy, n, hk.node, rfl⟩, fun id hid => ?_⟩
  -- As long as instances are expanded, no tunnel waits.
  rcases hr.uniform (Or.inl fun _ => List.not_mem_nil) with hu | hu
  · exact absurd (by rw [htasks, ← hrest]; exact List.mem_cons_of_mem _ hid) (hu id)
  · exact absurd (by rw [htasks]; exact List.mem_cons_self) (hu j)

end Loop

/-- Of the nodes that are left in the end, none has a wildcard that was inlined through an instance
with a concrete type. -/
def Concretizes (env : Env) (macros : MacroLibrary) (w : Working) : Prop :=
  ∀ {i : Nat} {a last : Loop} {id k : NodeId} {body : ScriptGraph} {resolved : Option PinType}
    {n : ScriptNode},
    Loop.Runs env macros i (Loop.start w) a → a.Expands macros id body resolved → Concrete resolved →
    a.Through env macros last k → last.state = w.expand env macros →
    last.state.work.graph.node? k = some n → n.hasWildcard = false

/-- Some instance without a concrete type, inlined through one that has one, brings in a wildcard. -/
inductive Leaks (env : Env) (macros : MacroLibrary) (w : Working) : Prop
  | nested {i : Nat} {a b c : Loop} {id j k : NodeId} {body inner : ScriptGraph}
      {resolved unresolved : Option PinType}
      {n : ScriptNode}
      (hr : Loop.Runs env macros i (Loop.start w) a) (ha : a.Expands macros id body resolved)
        (hconcrete : Concrete resolved)
      (hj : a.Through env macros b j) (hb : b.Expands macros j inner unresolved)
        (hopen : ¬ Concrete unresolved)
      (hk : b.Brings env macros c k n) (hplain : n.kind.isPlain = true)
        (hn : n.hasWildcard = true) : Leaks env macros w

theorem exists_end (hquiet : (w.expand env macros).work.errorCount = w.errorCount) :
    ∃ steps last, Loop.Runs env macros steps (Loop.start w) last ∧
      (∀ next, ¬ Loop.Step env macros last next) ∧
      last.state = w.expand env macros ∧ Expanded last.state.work.graph ∧
      ∀ {i : Nat} {b : Loop}, Loop.Runs env macros i (Loop.start w) b → b.state.halted = false := by
  obtain ⟨steps, last, hr, hstuck, hstate, hend⟩ := Loop.exists_last env macros w
  have hhalted : last.state.halted = false := Bool.eq_false_iff.mpr fun hh => by
    obtain ⟨log, name, detail, location, hd⟩ := hr.reported hh
    have herror : Diagnostic.isError ⟨.recursiveExpansion name detail, location⟩ = true := rfl
    rw [← hstate, Working.errorCount, Working.errorCount, hd, List.countP_append, List.countP_append,
      List.countP_singleton, herror, if_pos rfl] at hquiet
    omega
  exact ⟨steps, last, hr, hstuck, hstate, hend.resolve_right (Bool.eq_false_iff.mp hhalted),
    fun hb => hr.unhalted hstuck hhalted hb⟩

/-- Of what an instance brings in itself, only that has a wildcard which has one in the body, and
only if the type of the instance is not concrete. So wildcards are left behind an instance with a
concrete type just where one without is nested in it. -/
theorem expand_concretizes_iff (htidy : w.graph.Tidy)
    (hquiet : (w.expand env macros).work.errorCount = w.errorCount) :
    (∀ {i : Nat} {a b : Loop} {id k : NodeId} {body : ScriptGraph} {resolved : Option PinType}
      {n : ScriptNode},
      Loop.Runs env macros i (Loop.start w) a → a.Expands macros id body resolved →
        a.Brings env macros b k n →
      n.hasWildcard = true → ¬ Concrete resolved ∧ ∃ s m, body.node? s = some m ∧ m.hasWildcard = true) ∧
    (Concretizes env macros w ↔ ¬ Leaks env macros w) := by
  obtain ⟨steps, last, hend, hstuck, hstate, hexpanded, hhalted⟩ := exists_end hquiet
  have hdirect {i : Nat} {a b : Loop} {id k : NodeId} {body : ScriptGraph}
      {resolved : Option PinType} {n : ScriptNode}
      (hr : Loop.Runs env macros i (Loop.start w) a) (ha : a.Expands macros id body resolved)
        (hk : a.Brings env macros b k n)
      (hn : n.hasWildcard = true) : ¬ Concrete resolved ∧ ∃ s m, body.node? s = some m ∧
        m.hasWildcard = true :=
    ha.hasWildcard (hr.tidy htidy) hk (hhalted (hr.snoc hk.step)) hn
  refine ⟨hdirect, ?_, ?_⟩
  · rintro h ⟨hr, ha, hconcrete, hj, hb, -, hk, hplain, hn⟩
    obtain ⟨l, hl⟩ := hj.runs
    have hrb := hr.trans hl
    have hrc := hrb.snoc hk.step
    obtain ⟨m, hm⟩ := hend.to_stuck hstuck hrc
    obtain ⟨hlast, hholds⟩ := Loop.Through.lasts (.nested hj hb hk)
      (hb.keeps hrb hk (hrc.tidy htidy)) hplain hm
    obtain ⟨n', hn', ht⟩ := hholds.node
    rw [← Node.hasWildcard_eq_of_typed ht, h hr ha hconcrete hlast hstate hn'] at hn
    cases hn
  · intro hsound i a last' id k body resolved n hr ha hconcrete hthrough hstate' hn
    have hplain : n.kind.isPlain = true := by
      obtain ⟨hi, ht⟩ := hexpanded k n (by rw [hstate, ← hstate']; exact hn)
      rw [NodeKind.isPlain, hi, ht]
      rfl
    clear hstate'
    induction hthrough generalizing n with
    | direct h =>
        cases hn.symm.trans h.node
        exact Bool.eq_false_iff.mpr fun hw => (hdirect hr ha h hw).1 hconcrete
    | kept h hs _ ih =>
        obtain ⟨n', hn'⟩ := h.exists_node
        obtain ⟨l, hl⟩ := h.runs
        have ht := hs.typed_eq ((hr.trans hl).tidy htidy) hn' hn
        rw [Node.hasWildcard_eq_of_typed ht]
        exact ih hn' (Node.kind_eq_of_typed ht ▸ hplain)
    | nested h hj hk =>
        cases hn.symm.trans hk.node
        obtain ⟨l, hl⟩ := h.runs
        refine Bool.eq_false_iff.mpr fun hw => hsound ?_
        exact .nested hr ha hconcrete h hj (hdirect (hr.trans hl) hj hk hw).1 hk hplain hw

def takesAny (function : String) : ScriptNode :=
  { kind := .callFunction function, title := function,
    ports := [.execIn "exec", .execOut "then", .dataIn "value" .wildcard] }

def storeBody : ScriptGraph := { name := "Store", slots := [some (takesAny "store")], nextOrder := 1 }

def storing (typed : Bool) : NodeKind :=
  if typed then .macroInstance "Store" (some ⟨.string, .single⟩) else .composite storeBody

def logBody (typed : Bool) : ScriptGraph :=
  { name := "Log"
    slots := [some (takesAny "show"), some { kind := storing typed, title := "Store", order := 1 }]
    nextOrder := 2 }

def journal (typed : Bool) : MacroLibrary := .ofList [("Log", logBody typed), ("Store", storeBody)]

def logging : Working where
  function := "log"
  role := .function
  sourceGraph := "log"
  graph :=
    { name := "log"
      slots := [some { kind := .macroInstance "Log" (some ⟨.int, .single⟩), title := "Log" }]
      nextOrder := 1 }

theorem logging_tidy : logging.graph.Tidy :=
  ⟨rfl, List.nodup_nil, fun _ h => absurd h List.not_mem_nil, List.nodup_nil,
    fun _ h => absurd h List.not_mem_nil⟩

theorem logging_quiet (typed : Bool) :
    (logging.expand {} (journal typed)).work.errorCount = logging.errorCount := by
  cases typed <;> cbv

namespace Loop

def atLog : Loop := ⟨countRound { work := logging }, [.expand 0]⟩

def afterLog (typed : Bool) : Loop := ⟨expandInstance {} (journal typed) atLog.state 0, []⟩

def atStore (typed : Bool) : Loop := ⟨countRound (afterLog typed).state, [.expand 2]⟩

def afterStore (typed : Bool) : Loop := ⟨expandInstance {} (journal typed) (atStore typed).state 2, []⟩

variable (typed : Bool)

theorem step_atLog : Step {} (journal typed) (start logging) atLog := by
  have hagenda : agenda logging.graph = [.expand 0] := by cbv
  have hstep : Step {} (journal typed) (start logging) ⟨countRound { work := logging },
    agenda logging.graph⟩ :=
    .round _ rfl (by simp [hagenda])
  rwa [hagenda] at hstep

theorem step_afterLog : Step {} (journal typed) atLog (afterLog typed) := .perform _ (.expand 0) [] rfl

theorem step_atStore : Step {} (journal typed) (afterLog typed) (atStore typed) := by
  have hagenda : agenda (afterLog typed).state.work.graph = [.expand 2] := by cases typed <;> cbv
  have hhalted : (afterLog typed).state.halted = false := by cases typed <;> cbv
  have hstep : Step {} (journal typed) (afterLog typed)
      ⟨countRound (afterLog typed).state, agenda (afterLog typed).state.work.graph⟩ :=
    .round (afterLog typed).state hhalted (by rw [hagenda]; exact List.cons_ne_nil _ _)
  rwa [hagenda] at hstep

theorem step_afterStore : Step {} (journal typed) (atStore typed) (afterStore typed) := by
  have hhalted : (atStore typed).state.halted = false := by cases typed <;> cbv
  exact .perform _ (.expand 2) [] hhalted

theorem not_step_afterStore (b : Loop) : ¬ Step {} (journal typed) (afterStore typed) b := by
  have hagenda : agenda (afterStore typed).state.work.graph = [] := by cases typed <;> cbv
  exact not_step_of_expanded (expanded_iff.mpr hagenda) b

theorem runs_logging {typed : Bool} {i : Nat} {b : Loop}
    (h : Runs {} (journal typed) i (start logging) b) :
    b = start logging ∨ b = atLog ∨ b = afterLog typed ∨ b = atStore typed ∨ b = afterStore typed := by
  cases h with
  | done => exact Or.inl rfl
  | step hs h =>
  cases step_unique hs (step_atLog typed)
  cases h with
  | done => exact Or.inr (Or.inl rfl)
  | step hs h =>
  cases step_unique hs (step_afterLog typed)
  cases h with
  | done => exact Or.inr (Or.inr (Or.inl rfl))
  | step hs h =>
  cases step_unique hs (step_atStore typed)
  cases h with
  | done => exact Or.inr (Or.inr (Or.inr (Or.inl rfl)))
  | step hs h =>
  cases step_unique hs (step_afterStore typed)
  cases h with
  | done => exact Or.inr (Or.inr (Or.inr (Or.inr rfl)))
  | step hs => exact absurd hs (not_step_afterStore typed _)

theorem concrete_of_expands {i : Nat} {b : Loop} {id : NodeId} {body : ScriptGraph}
    {resolved : Option PinType} (hr : Runs {} (journal true) i (start logging) b)
    (hb : b.Expands (journal true) id body resolved) : Concrete resolved := by
  obtain ⟨rest, htask⟩ := hb.task
  obtain ⟨n, hn, hbody⟩ := hb.body
  have hconcrete {name : String} {type : PinType} (hk : n.kind = .macroInstance name (some type))
      (ht : type.isWildcard = false) :
      Concrete resolved := by
    rw [hk] at hbody
    obtain ⟨g, -, he⟩ := Option.map_eq_some_iff.mp hbody
    exact ⟨type, (congrArg Prod.snd he).symm, ht⟩
  rcases runs_logging hr with rfl | rfl | rfl | rfl | rfl
  · cases htask
  · cases htask
    cases hn
    exact hconcrete rfl rfl
  · cases htask
  · cases htask
    have hkind : ((atStore true).state.work.graph.node? 2).map Node.kind = some (storing true) := by cbv
    rw [hn] at hkind
    exact hconcrete (Option.some.inj hkind) rfl
  · cases htask

end Loop

/-- An instance that has a type of its own. -/
theorem logging_concretized : logging.graph.Tidy ∧
    (logging.expand {} (journal true)).work.errorCount = logging.errorCount ∧
      Concretizes {} (journal true) logging := by
  refine ⟨logging_tidy, logging_quiet true,
    (expand_concretizes_iff logging_tidy (logging_quiet true)).2.mpr ?_⟩
  rintro ⟨hr, -, -, hj, hb, hopen, -, -, -⟩
  obtain ⟨l, hl⟩ := hj.runs
  exact hopen (Loop.concrete_of_expands (hr.trans hl) hb)

/-- A group of nodes has none, so the value that is stored still has a wildcard type, while the one
that is shown is a number. -/
theorem logging_not_concretized : logging.graph.Tidy ∧
    (logging.expand {} (journal false)).work.errorCount = logging.errorCount ∧
      ¬ Concretizes {} (journal false) logging := by
  refine ⟨logging_tidy, logging_quiet false, fun h => ?_⟩
  have hstore : ((Loop.afterLog false).state.work.graph.node? 2).map Node.kind =
      some (.composite storeBody) := by cbv
  have hcall : ((Loop.afterStore false).state.work.graph.node? 0).map Node.hasWildcard =
      some true := by cbv
  have hend : (Loop.afterStore false).state = logging.expand {} (journal false) := by cbv
  obtain ⟨store, hs, hkind⟩ := Option.map_eq_some_iff.mp hstore
  obtain ⟨call, hc, hwild⟩ := Option.map_eq_some_iff.mp hcall
  have hlog : Loop.atLog.Expands (journal false) 0 (logBody false) (some ⟨.int, .single⟩) :=
    ⟨⟨[], rfl⟩, _, rfl, by cbv⟩
  have hgroup : (Loop.atStore false).Expands (journal false) 2 storeBody none :=
    ⟨⟨[], rfl⟩, store, hs, by rw [hkind]; rfl⟩
  have hnested : Loop.atLog.Through {} (journal false) (Loop.atStore false) 2 :=
    .kept (.direct ⟨Loop.step_afterLog false, by cbv, hs⟩) (Loop.step_atStore false) hs
  have hthrough : Loop.atLog.Through {} (journal false) (Loop.afterStore false) 0 :=
    .nested hnested hgroup ⟨Loop.step_afterStore false, by cbv, hc⟩
  rw [h (.step (Loop.step_atLog false) (.done _)) hlog ⟨_, rfl, rfl⟩ hthrough hend hc] at hwild
  cases hwild

end Expansion

end VisualScript
