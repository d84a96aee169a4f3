import VisualScript.Proofs.Working.Blocks

namespace VisualScript

namespace Statement

def terms : Statement → List TermId
  | .callFunction _ args results => args ++ results
  | .assign dest src => [dest, src]
  | .createArray dest elements => dest :: elements
  | .gotoIfNot condition _ => [condition]
  | .computedGoto index => [index]
  | .custom _ args => args
  | _ => []

@[simp] theorem terms_mapTarget (f : JumpTarget → JumpTarget) (s : Statement) :
    (s.mapTarget f).terms = s.terms := by
  cases s <;> rfl

@[simp] theorem terms_jump (t : JumpTarget) : (jump t).terms = [] := by
  cases t <;> rfl

theorem terms_of_isMark {s : Statement} (h : s.isMark = true) : s.terms = [] := by
  cases s <;> first | rfl | cases h

end Statement

def Body.terms (b : Body) : List TermId := b.statements.flatMap Statement.terms

def Within (bound : Nat) (code : List Statement) : Prop := ∀ s ∈ code, ∀ t ∈ s.terms, t < bound

section Within

variable {bound : Nat}

@[simp] theorem within_nil : Within bound [] ↔ True := iff_true_intro (List.forall_mem_nil _)

@[simp] theorem within_append {a b : List Statement} :
    Within bound (a ++ b) ↔ Within bound a ∧ Within bound b :=
  List.forall_mem_append

@[simp] theorem within_cons {s : Statement} {code : List Statement} :
    Within bound (s :: code) ↔ (∀ t ∈ s.terms, t < bound) ∧ Within bound code := List.forall_mem_cons

theorem within_flatten {codes : List (List Statement)} :
    Within bound codes.flatten ↔ ∀ code ∈ codes, Within bound code :=
  ⟨fun h code hcode s hs => h s (List.mem_flatten_of_mem hcode hs), fun h s hs => by
    obtain ⟨code, hcode, hs⟩ := List.mem_flatten.mp hs
    exact h code hcode s hs⟩

theorem within_of_marks {code : List Statement} (h : ∀ s ∈ code, s.isMark = true) : Within bound code := by
  intro s hs t ht
  rw [Statement.terms_of_isMark (h s hs)] at ht
  cases ht

theorem within_congr {a b : List Statement} (h : a.map Statement.terms = b.map Statement.terms) :
    Within bound a ↔ Within bound b := by
  have hterms (code : List Statement) : Within bound code ↔
      ∀ ts ∈ code.map Statement.terms, ∀ t ∈ ts, t < bound := by
    rw [List.forall_mem_map]
    rfl
  rw [hterms, hterms, h]

end Within

namespace Working

def isFed (w : Working) (p : PortRef) : Bool := (w.source? p).isSome

def allFed (w : Working) (id : NodeId) (n : ScriptNode) : Bool :=
  (n.portsWhere .data .input).all fun p => w.isFed ⟨id, p.1⟩

/-- Whether the code of a node uses only terms that there are before it is emitted: what it reads is linked
to something that has a term, what it writes is declared, and it sets no local to an initial value. -/
def isSettled (env : Env) (w : Working) (id : NodeId) (n : ScriptNode) : Bool :=
  match n.kind with
  | .functionEntry spec => spec.locals.all fun l => (w.terms.find? .local l.name).isNone ||
      l.default.isNone
  | .functionResult => (n.portsWhere .data .input).all fun p =>
      (w.terms.net? ⟨id, p.1⟩).isNone || w.isFed ⟨id, p.1⟩
  | .callFunction _ => w.allFed id n
  | .variableSet name => match n.findPort? "value" .input with
    | none => true
    | some value => match w.terms.find? .local name, env.schema.member? name with
      | some _, _ => w.isFed ⟨id, value⟩
      | none, some m => (w.terms.find? .member m.name).isSome && w.isFed ⟨id, value⟩
      | none, none => true
  | .persistentFrameAssign =>
      (n.portsWhere .data .input).all fun p => (w.terms.find? .persistentFrame p.2.name).isSome &&
        w.isFed ⟨id, p.1⟩
  | .branch => match n.findPort? "condition" .input with
    | some condition => w.isFed ⟨id, condition⟩
    | none => false
  | .makeArray => (w.dataOutputs id).isEmpty || w.allFed id n
  | .enumLiteral _ => match n.findPort? "value" .input, (w.dataOutputs id).head? with
    | some value, some _ => w.isFed ⟨id, value⟩
    | _, _ => true
  | _ => true

variable {w v : Working}

theorem source_lt (h : w.terms.Valid) {p : PortRef} {term : TermId} (hs : w.source? p = some term) :
    term < w.terms.terms.length := by
  obtain ⟨far, _, hnet⟩ := Option.bind_eq_some_iff.mp hs
  exact h.nets hnet

theorem dataOutputs_lt (h : w.terms.Valid) (id : NodeId) :
    ∀ t ∈ w.dataOutputs id, t < w.terms.terms.length := by
  intro t ht
  unfold dataOutputs at ht
  split at ht
  · obtain ⟨p, _, hnet⟩ := List.mem_filterMap.mp ht
    exact h.nets hnet
  · cases ht

end Working

namespace Build

open Working (Grows)

variable {α β : Type} {w : Working} {Q : α → Prop} {R : β → Prop} {P C : Prop} {x : Build α}
    {f : α → Build β}

/-- Adds terms at most, and whatever has been emitted since the state `w`, the result has the property just
if the condition holds. -/
def Tells (w : Working) (Q : α → Prop) (P : Prop) (x : Build α) : Prop :=
  ∀ v, w.Grows v → w.Grows (x v).2 ∧ (Q (x v).1 ↔ P)

theorem Tells.iff (h : Tells w Q P x) (hp : P ↔ C) :
    Tells w Q C x := fun v hv => (h v hv).imp id fun hq => hq.trans hp

theorem Tells.any (hr : Respects Grows x) : Tells w (fun _ => True) True x :=
  fun v hv => ⟨IsTrans.trans _ _ _ hv (hr v), Iff.rfl⟩

theorem Tells.pure {a : α} (h : Q a ↔ P) : Tells w Q P (Pure.pure a : Build α) := fun _ hv => ⟨hv, h⟩

theorem Tells.bind (hx : Tells w Q P x) (hf : ∀ a, Tells w R (Q a ∧ C) (f a)) :
    Tells w R (P ∧ C) (x >>= f) := by
  intro v hv
  obtain ⟨hgrows, hq⟩ := hx v hv
  rw [← hq]
  exact hf _ _ hgrows

theorem Tells.map (hx : Tells w Q P x) (hf : ∀ a, Tells w R (Q a) (f a)) : Tells w R P (x >>= f) :=
  (Tells.bind hx fun a => (hf a).iff (and_iff_left trivial).symm).iff (and_iff_left trivial)

theorem Tells.read {f : Working → Build β} (hf : ∀ v, w.Grows v → Tells w R P (f v)) :
    Tells w R P (get >>= f) :=
  fun v hv => hf v hv v hv

theorem Tells.mapM {C : α → Prop} (hf : ∀ a, Tells w R (C a) (f a)) (l : List α) :
    Tells w (fun bs => ∀ b ∈ bs, R b) (∀ a ∈ l, C a) (l.mapM f) := by
  induction l with
  | nil => exact .pure (by simp)
  | cons a l ih =>
      intro v hv
      obtain ⟨hgrows, hfirst⟩ := hf a v hv
      obtain ⟨hend, hrest⟩ := ih _ hgrows
      rw [mapM_cons, List.forall_mem_cons (l := l)]
      exact ⟨hend, List.forall_mem_cons.trans (and_congr hfirst hrest)⟩

variable (w) in
theorem literal_tells (type : PinType) (value : String) :
    Tells w (· < w.terms.terms.length) False (literal type value) :=
  fun v hv => ⟨IsTrans.trans _ _ _ hv (literal_respects type value v),
    iff_false_intro (Nat.not_lt_of_le hv.terms.length_le)⟩

theorem inputTerm_tells (hw : w.terms.Valid) (p : PortRef) :
    Tells w (· < w.terms.terms.length) (w.isFed p = true) (inputTerm p) := by
  intro v hv
  have hinspect : w.Grows (v.inspect p) := IsTrans.trans _ _ _ hv (inspect_grows v p)
  rw [Working.isFed]
  cases hs : w.source? p with
  | some term =>
      rw [inputTerm_of_source ((hv.source? p).trans hs)]
      exact ⟨hinspect, iff_of_true (Working.source_lt hw hs) rfl⟩
  | none =>
      rw [inputTerm_of_no_source ((hv.source? p).trans hs)]
      exact (literal_tells w _ _).iff (by simp) _ hinspect

theorem dataInputs_tells (hw : w.terms.Valid) {id : NodeId} {n : ScriptNode}
    (hn : w.graph.node? id = some n) :
    Tells w (fun ts => ∀ t ∈ ts, t < w.terms.terms.length) (w.allFed id n = true) (dataInputs id) := by
  refine .read fun v hv => ?_
  rw [hv.graph, hn, Working.allFed, List.all_eq_true]
  exact .mapM (fun p => inputTerm_tells hw _) _

theorem classSlot_tells (hw : w.terms.Valid) {kind : TermKind} (hscope : kind.isClassScope = true)
    (name : String) (type : PinType) (node : NodeId) :
    Tells w (· < w.terms.terms.length) ((w.terms.find? kind name).isSome = true)
      (classSlot kind name type node) := by
  intro v hv
  refine ⟨IsTrans.trans _ _ _ hv (classSlot_respects hscope name type node v), ?_⟩
  have hdeclared {id : TermId} (hd : v.terms.declared.get? (kind, name) = some id) :
      (classSlot kind name type node v).1 = id := by
    have hm : v.terms.member kind name type = .ok (id, v.terms) := by
      unfold TermTable.member
      rw [hd]
    rw [classSlot_ok hm]
  cases hk : w.terms.find? kind name with
  | some id =>
      rw [hdeclared (hv.terms.declared hk)]
      exact iff_of_true (hw.declared hk) rfl
  | none =>
      -- A slot that was declared since is a term that was made since.
      refine iff_of_false (Nat.not_lt_of_le ?_) Bool.false_ne_true
      cases hd : v.terms.declared.get? (kind, name) with
      | some id =>
          rw [hdeclared hd]
          rcases hv.terms.later hd with hd | ⟨hle, _⟩
          · exact absurd (hk.symm.trans hd) (Option.some_ne_none id).symm
          · exact hle
      | none =>
          refine Nat.le_trans hv.terms.length_le ?_
          cases hm : v.terms.member kind name type with
          | ok r =>
              rw [classSlot_ok hm]
              exact TermTable.le_member hm hd
          | error clash =>
              rw [classSlot_error hm]
              exact Nat.le_refl _

end Build

namespace Handler

open Build Working

variable {env : Env} {w : Working} {id : NodeId} {n : ScriptNode}

/-- The code of a node keeps to the terms there are just if the node is settled. -/
def Settles (h : Handler) (env : Env) (w : Working) (id : NodeId) (n : ScriptNode) : Prop :=
  Tells w (Within w.terms.terms.length) (w.isSettled env id n = true) (h.emit env id n)

theorem andThen_tells (bound : Nat) (id : NodeId) (code : List Statement) :
    Tells w (Within bound) (Within bound code) (andThen id code) :=
  .read fun v _ => .pure (by simp [followJump])

theorem assign_tells (hw : w.terms.Valid) {dest : TermId} (hdest : dest < w.terms.terms.length)
    (p : PortRef) :
    Tells w (Within w.terms.terms.length) (w.isFed p = true) (return [.assign dest (← inputTerm p)]) :=
  .map (inputTerm_tells hw p) fun src => .pure (by simp [Statement.terms, hdest])

theorem initLocal_tells (hw : w.terms.Valid) (l : LocalDecl) :
    Tells w (Within w.terms.terms.length)
      (((w.terms.find? .local l.name).isNone || l.default.isNone) = true) (initLocal l) := by
  refine .read fun v hv => ?_
  rw [hv.find? rfl]
  cases hdest : w.terms.find? .local l.name with
  | none => exact .pure (by simp)
  | some dest =>
      cases hvalue : l.default with
      | none => exact .pure (by simp)
      | some value =>
          refine (Tells.map (literal_tells w _ _) fun src => ?_).iff (by simp)
          exact .pure (by simp [Statement.terms, hw.declared hdest])

theorem functionEntry_settles (hw : w.terms.Valid) {spec : EntrySpec} (hk : n.kind = .functionEntry spec) :
    functionEntry.Settles env w id n := by
  simp only [Settles, isSettled, functionEntry, hk, List.all_eq_true]
  refine .map (.mapM (initLocal_tells hw) _) fun codes => ?_
  rw [← within_flatten]
  refine .read fun v hv => ?_
  rw [hv.dataOutputs]
  cases spec.computedDispatch with
  | false => exact andThen_tells _ _ _
  | true =>
      cases hindex : (w.dataOutputs id).head? with
      | none => exact andThen_tells _ _ _
      | some index =>
          have hlt := dataOutputs_lt hw id index (List.mem_of_mem_head? hindex)
          exact .pure (by simp [Statement.terms, hlt])

theorem functionResult_settles (hw : w.terms.Valid) (hk : n.kind = .functionResult) :
    functionResult.Settles env w id n := by
  simp only [Settles, isSettled, functionResult, hk, List.all_eq_true]
  refine .map (.mapM (R := Within w.terms.terms.length) (fun p => .read fun v hv => ?_) _) fun stores => ?_
  · rw [TermTable.net?, TermTable.net?, hv.terms.nets]
    cases hdest : w.terms.nets.get? ⟨id, p.1⟩ with
    | none => exact .pure (by simp)
    | some dest => exact (assign_tells hw (hw.nets hdest) _).iff (by simp)
  · exact .pure (by simp [within_flatten, Statement.terms])

theorem event_settles {spec : EventSpec} (hk : n.kind = .event spec) : event.Settles env w id n := by
  simp only [Settles, isSettled, event, hk]
  exact (andThen_tells _ _ _).iff (by simp)

theorem callFunction_settles (hw : w.terms.Valid) (hn : w.graph.node? id = some n) {function : String}
    (hk : n.kind = .callFunction function) : callFunction.Settles env w id n := by
  simp only [Settles, isSettled, callFunction, hk]
  refine .map (dataInputs_tells hw hn) fun args => .read fun v hv => ?_
  have hcode : Within w.terms.terms.length [.callFunction function args (v.dataOutputs id)] ↔
      ∀ t ∈ args, t < w.terms.terms.length := by
    rw [within_cons, hv.dataOutputs, Statement.terms, List.forall_mem_append, within_nil, and_true]
    exact and_iff_left (dataOutputs_lt hw id)
  split
  · exact (andThen_tells _ _ _).iff hcode
  · exact .pure hcode

theorem callEventGraph_settles {event : String} (hk : n.kind = .callEventGraph event) :
    callEventGraph.Settles env w id n := by
  simp only [Settles, isSettled, callEventGraph, hk]
  exact (andThen_tells _ _ _).iff (by simp [Statement.terms])

theorem variableTerm?_tells (hw : w.terms.Valid) (env : Env) (name : String) (node : NodeId) (fed : Bool) :
    Tells w (fun found => ∀ dest ∈ found, dest < w.terms.terms.length ∧ fed = true)
      ((match w.terms.find? .local name, env.schema.member? name with
        | some _, _ => fed
        | none, some m => (w.terms.find? .member m.name).isSome && fed
        | none, none => true) = true)
      (variableTerm? env name node) := by
  refine .read fun v hv => ?_
  rw [hv.find? rfl]
  cases hlocal : w.terms.find? .local name with
  | some dest => exact .pure (by simp [hw.declared hlocal])
  | none =>
      cases env.schema.member? name with
      | none => exact .pure (by simp)
      | some m =>
          simp only [Bool.and_eq_true]
          exact .bind (classSlot_tells hw rfl _ _ _) fun dest => .pure (by simp)

theorem variableSet_settles (hw : w.terms.Valid) {name : String} (hk : n.kind = .variableSet name) :
    variableSet.Settles env w id n := by
  simp only [Settles, isSettled, variableSet, hk]
  cases hvalue : n.findPort? "value" .input with
  | none =>
      refine (Tells.map (.any (variableTerm?_respects (fun _ _ => classSlot_respects rfl _ _ id) env
        name)) fun found => ?_).iff (by simp)
      cases found <;> exact (andThen_tells _ _ _).iff (by simp)
  | some value =>
      refine .map (variableTerm?_tells hw env name id (w.isFed ⟨id, value⟩)) fun found => ?_
      cases found with
      | none => exact (andThen_tells _ _ _).iff (by simp)
      | some dest =>
          refine (Tells.bind (C := dest < w.terms.terms.length) (inputTerm_tells hw ⟨id, value⟩)
            fun src => ?_).iff
            (by simp [and_comm])
          exact (andThen_tells _ _ _).iff (by simp [Statement.terms, and_comm])

theorem persistentFrameAssign_settles (hw : w.terms.Valid) (hk : n.kind = .persistentFrameAssign) :
    persistentFrameAssign.Settles env w id n := by
  simp only [Settles, isSettled, persistentFrameAssign, hk, List.all_eq_true, Bool.and_eq_true]
  -- The slot is looked up before the input, so both conditions are carried to the store.
  refine .map (.mapM (fun p => ?_) _) fun stores => andThen_tells _ _ _
  refine .bind (classSlot_tells hw rfl _ _ _) fun dest => ?_
  refine (Tells.bind (inputTerm_tells hw ⟨id, p.1⟩) fun src => ?_).iff and_comm
  exact .pure (by simp [Statement.terms, and_comm])

theorem branch_settles (hw : w.terms.Valid) (hk : n.kind = .branch) : branch.Settles env w id n := by
  have htells {x : Build TermId} {P : Prop} (hx : Tells w (· < w.terms.terms.length) P x) :
      Tells w (Within w.terms.terms.length) P do
        let condition ← x
        let w ← get
        return [.gotoIfNot condition (w.follow id "false"), w.followJump id "true"] :=
    .map hx fun c => .read fun v _ => .pure (by
      rw [within_cons, within_cons, followJump, Statement.terms_jump]
      simp [Statement.terms])
  simp only [Settles, isSettled, branch, hk]
  cases n.findPort? "condition" .input with
  | some index => exact htells (inputTerm_tells hw _)
  | none => exact (htells (literal_tells w _ _)).iff (by simp)

theorem sequence_settles (hk : n.kind = .sequence) : sequence.Settles env w id n := by
  simp only [Settles, isSettled, sequence, hk]
  refine .read fun v _ => ?_
  split
  · exact .pure (by simp [Statement.terms])
  · next first rest _ =>
      have hpush : Within w.terms.terms.length (rest.reverse.map .pushFlow) := by
        intro s hs t ht
        obtain ⟨target, _, rfl⟩ := List.mem_map.mp hs
        cases ht
      exact .pure (iff_of_true (within_append.mpr ⟨hpush, by simp⟩) trivial)

theorem tunnelBoundary_settles {site : BoundarySite} (hk : n.kind = .tunnelBoundary site) :
    tunnelBoundary.Settles env w id n := by
  simp only [Settles, isSettled, tunnelBoundary, hk]
  exact .read fun v _ => (andThen_tells _ _ _).iff (by simp [Statement.terms])

theorem makeArray_settles (hw : w.terms.Valid) (hn : w.graph.node? id = some n)
    (hk : n.kind = .makeArray) :
    makeArray.Settles env w id n := by
  simp only [Settles, isSettled, makeArray, hk]
  cases hdest : w.dataOutputs id with
  | nil =>
      refine (Tells.map (.any (admitsEmit_grows id n).dataInputs) fun elements => .read
        fun v hv => ?_).iff (by simp)
      rw [hv.dataOutputs, hdest]
      exact .pure (by simp)
  | cons dest rest =>
      refine .map (dataInputs_tells hw hn) fun elements => .read fun v hv => ?_
      have hlt := dataOutputs_lt hw id dest (hdest ▸ List.mem_cons_self)
      rw [hv.dataOutputs, hdest]
      exact .pure (by simp [Statement.terms, hlt])

theorem enumLiteral_settles (hw : w.terms.Valid) {name : String} (hk : n.kind = .enumLiteral name) :
    enumLiteral.Settles env w id n := by
  simp only [Settles, isSettled, enumLiteral, hk]
  refine .read fun v hv => ?_
  rw [hv.dataOutputs]
  cases n.findPort? "value" .input with
  | none => exact .pure (by simp)
  | some value =>
      cases hdest : (w.dataOutputs id).head? with
      | none => exact .pure (by simp)
      | some dest => exact assign_tells hw (dataOutputs_lt hw id dest (List.mem_of_mem_head? hdest)) _

end Handler

open Build Working

variable {env : Env} {w : Working} {id : NodeId} {n : ScriptNode}

theorem Handler.noCode_settles {h : Handler} (hemit : h.emit = noCode) (hs : w.isSettled env id n = true) :
    h.Settles env w id n := by
  rw [Settles, hemit, hs]
  exact .pure (by simp)

theorem Registry.standard_settles (hw : w.terms.Valid) (hn : w.graph.node? id = some n) {h : Handler}
    (hh : standard.handler? n = some h) : h.Settles env w id n := by
  rw [Handler.handler?_standard] at hh
  cases hk : n.kind <;> rw [hk] at hh <;> cases hh
  case functionEntry => exact Handler.functionEntry_settles hw hk
  case functionResult => exact Handler.functionResult_settles hw hk
  case event => exact Handler.event_settles hk
  case callFunction => exact Handler.callFunction_settles hw hn hk
  case variableGet | literal | comment => exact Handler.noCode_settles rfl (by rw [isSettled, hk])
  case variableSet => exact Handler.variableSet_settles hw hk
  case branch => exact Handler.branch_settles hw hk
  case sequence => exact Handler.sequence_settles hk
  case tunnelBoundary => exact Handler.tunnelBoundary_settles hk
  case persistentFrameAssign => exact Handler.persistentFrameAssign_settles hw hk
  case callEventGraph => exact Handler.callEventGraph_settles hk
  case makeArray => exact Handler.makeArray_settles hw hn hk
  case enumLiteral => exact Handler.enumLiteral_settles hw hk

theorem Registry.isSettled_of_no_handler (hh : standard.handler? n = none) :
    w.isSettled env id n = true := by
  rw [Handler.handler?_standard] at hh
  cases hk : n.kind <;> rw [hk] at hh
  case macroInstance | composite | tunnel | custom => rw [isSettled, hk]
  all_goals cases hh

variable (env) in
theorem Registry.emitNode_tells (hw : w.terms.Valid) (id : NodeId) :
    Tells w (Within w.terms.terms.length) (∀ n, w.graph.node? id = some n → w.isSettled env id n = true)
      (standard.emitNode env id) := by
  refine .read fun v hv => ?_
  rw [hv.graph]
  cases hn : w.graph.node? id with
  | none => exact .pure (by simp)
  | some n =>
      simp only [Option.some.injEq, forall_eq']
      cases hh : standard.handler? n with
      | none => exact .pure (iff_of_true (within_nil.mpr trivial) (isSettled_of_no_handler hh))
      | some h => exact standard_settles hw hn hh

namespace Build

variable (env) in
theorem emit_tells (hw : w.terms.Valid) (id : NodeId) :
    Tells w (fun code => Within w.terms.terms.length (code.map Prod.snd))
      (∀ n, w.graph.node? id = some n → w.isSettled env id n = true) (emit .standard env id) := by
  intro v hv
  obtain ⟨lead, hmarks, he⟩ := emit_eq .standard env id v
  obtain ⟨hgrows, hcode⟩ := Registry.emitNode_tells env hw id v hv
  rw [he, ← hcode]
  exact ⟨hgrows, by simp [Function.comp_def, within_of_marks hmarks]⟩

variable (env) in
theorem block_tells (hw : w.terms.Valid) (s : Schedule) (id : NodeId) :
    Tells w (fun b => Within w.terms.terms.length (b.statements.map Prod.snd))
      (∀ k ∈ s.prelude id ++ [id], ∀ n, w.graph.node? k = some n → w.isSettled env k n = true)
      (block .standard env s id) := by
  refine .map (.mapM (emit_tells env hw) _) fun parts => .pure ?_
  rw [List.map_flatten, within_flatten, List.forall_mem_map]

variable (env) in
theorem blocks_tells (hw : w.terms.Valid) (s : Schedule) :
    (∀ b ∈ (blocks .standard env s w).1, Within w.terms.terms.length (b.statements.map Prod.snd)) ↔
      ∀ id ∈ s.emissionOrder, ∀ n, w.graph.node? id = some n → w.isSettled env id n = true := by
  rw [Schedule.emissionOrder, List.forall_mem_flatMap]
  exact (Tells.mapM (block_tells env hw s) s.linear w (Std.Refl.refl w)).2

end Build

theorem Block.within_trim {bound : Nat} (b : Block) (next : Option Block) :
    Within bound ((b.trim next).statements.map Prod.snd) ↔ Within bound (b.statements.map Prod.snd) := by
  -- What is dropped is a jump, which uses no terms.
  rcases b.trim_cases next with htrim | ⟨front, b', _, hcode, htrim⟩
  · rw [htrim]
  · rw [hcode, htrim, within_append]
    simp [Statement.terms]

theorem Block.within_fallThrough {bound : Nat} (blocks : List Block) :
    (∀ b ∈ fallThrough blocks, Within bound (b.statements.map Prod.snd)) ↔
      ∀ b ∈ blocks, Within bound (b.statements.map Prod.snd) := by
  fun_induction fallThrough blocks with
  | case1 | case2 => exact Iff.rfl
  | case3 b next rest ih =>
      have htrim : (if b.lastIsGotoTo next.node then { b with statements := b.statements.dropLast }
        else b) =
          b.trim (some next) := by simp [trim]
      rw [List.forall_mem_cons, ih, htrim, within_trim, List.forall_mem_cons (a := b)]

theorem Body.within_link {bound : Nat} (blocks : List Block) (originOf : NodeId → Option Origin) :
    Within bound (link blocks originOf).statements ↔ ∀ b ∈ blocks,
    Within bound (b.statements.map Prod.snd) := by
  have hcode : (link blocks originOf).statements.map Statement.terms =
      ((Block.fallThrough blocks).map fun b => b.statements.map Prod.snd).flatten.map Statement.terms := by
    simp [link, List.flatMap, Function.comp_def, List.map_flatten]
  rw [within_congr hcode, within_flatten, List.forall_mem_map, Block.within_fallThrough]

end VisualScript
