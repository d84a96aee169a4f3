import VisualScript.Proofs.Working.Growth

namespace VisualScript

/-- The kinds of terms that nodes of a kind declare when they are registered. -/
def NodeKind.declares : NodeKind → TermKind → Bool
  | .functionEntry _, kind => kind = .parameter || kind = .local
  | .functionResult, kind => kind = .output
  | .event _, kind => kind = .persistentFrame
  | .callFunction _, kind | .makeArray, kind | .enumLiteral _, kind => kind = .local
  | .variableGet _, kind | .variableSet _, kind => kind = .member
  | .literal, kind => kind = .literal
  | _, _ => false

/-- The slots of the class that a node asks for: variables, and the parameters of an event. -/
def ScriptNode.Asks (n : ScriptNode) (kind : TermKind) (name : String) (type : PinType) : Prop :=
  kind = .member ∨ kind = .persistentFrame ∧ ∃ spec, n.kind = .event spec ∧
    ∃ p ∈ n.portsWhere .data .output, name = slotName spec.name p.2.name ∧ type = p.2.type

theorem ScriptNode.Asks.isClassScope {n : ScriptNode} {kind : TermKind} {name : String}
    {type : PinType} (h : n.Asks kind name type) :
    kind.isClassScope = true := by
  rcases h with rfl | ⟨rfl, _⟩ <;> rfl

namespace Build

open Working (Frame Grows)

theorem Respects.frame {α : Type} {x : Build α} (h : Respects Grows x) :
    Respects Frame x := fun w => (h w).toFrame

theorem onTerms_frame {α : Type} (f : TermTable → α × TermTable) : Respects Frame (onTerms f) :=
  fun w => w.frame_of_terms _

end Build

namespace Handler

open Build Working

theorem handler?_standard (n : ScriptNode) : Registry.standard.handler? n = match n.kind with
    | .functionEntry _ => some functionEntry
    | .functionResult => some functionResult
    | .event _ => some event
    | .callFunction _ => some callFunction
    | .callEventGraph _ => some callEventGraph
    | .variableGet _ => some variableGet
    | .variableSet _ => some variableSet
    | .persistentFrameAssign => some persistentFrameAssign
    | .branch => some branch
    | .sequence => some sequence
    | .tunnelBoundary _ => some tunnelBoundary
    | .literal => some literalNode
    | .makeArray => some makeArray
    | .enumLiteral _ => some enumLiteral
    | .comment => some comment
    | .macroInstance .. | .composite _ | .tunnel _ | .custom .. => none := by
  unfold Registry.handler?
  cases n.kind <;> rfl

variable {R : Working → Working → Prop} {env : Env} {id : NodeId} {n : ScriptNode} {handler : Handler}

/-- The relation admits each step that is taken to register the terms of a node. -/
structure AdmitsRegister (R : Working → Working → Prop) (id : NodeId) (n : ScriptNode) : Prop where
  add : ∀ {kind : TermKind}, n.kind.declares kind = true → kind.isClassScope = false →
    ∀ declared type, Respects R (onTerms fun t => t.add kind declared type)
  addLocal : n.kind.declares .local = true → ∀ declared type initial,
  Respects R (onTerms fun t => t.addLocal declared type initial)
  literal : n.kind.declares .literal = true → ∀ type value, Respects R (literal type value)
  slot : ∀ {kind : TermKind} {name : String} {type : PinType}, n.kind.declares kind = true →
    n.Asks kind name type →
    Respects R (classSlot kind name type id)
  bind : ∀ index term, Respects R (bind ⟨id, index⟩ term)
  report : n.kind.declares .member = true → ∀ issue, Respects R (report issue (some id))

/-- The relation admits each step that is taken to emit the code of a node. Entries ask for no slots. -/
structure AdmitsEmit (R : Working → Working → Prop) (id : NodeId) (n : ScriptNode) : Prop where
  literal : ∀ type value, Respects R (literal type value)
  input : ∀ port, Respects R (inputTerm port)
  slot : n.kind.isEntry = false → ∀ {kind : TermKind}, kind.isClassScope = true →
    ∀ name type, Respects R (classSlot kind name type id)

section Admits

variable [Std.Refl R] [IsTrans Working R]

theorem AdmitsRegister.outputLocals (h : AdmitsRegister R id n)
    (hk : n.kind.declares .local = true) : Respects R (outputLocals id n) := by
  refine .forM (fun p => .bind .get fun w => ?_) _
  split
  · exact .pure _
  · exact .bind (h.add hk rfl _ _) fun _ => h.bind _ _

theorem AdmitsRegister.variableOf (h : AdmitsRegister R id n) (hk : n.kind.declares .member = true)
    (name : String) :
    Respects R (variableOf env name id n) := by
  refine .bind (variableTerm?_respects (fun _ _ => h.slot hk (Or.inl rfl)) env name) fun _ => ?_
  split
  · exact .pure _
  · exact .bind (h.report hk _) fun _ => .pure _

/-- All that registering the terms of a node does. -/
theorem AdmitsRegister.register (h : AdmitsRegister R id n)
    (hh : Registry.standard.handler? n = some handler) :
    Respects R (handler.register env id n) := by
  rw [handler?_standard] at hh
  cases hk : n.kind <;> rw [hk] at hh <;> cases hh
  case functionEntry =>
    simp only [functionEntry, hk]
    refine .bind (.forM (fun p => .bind (h.add (by rw [hk]; rfl) rfl _ _) fun _ => h.bind _ _) _)
      fun _ => ?_
    exact .forM (fun l => .bind (h.addLocal (by rw [hk]; rfl) _ _ _) fun _ => .pure _) _
  case functionResult =>
    refine .forM (fun p => .bind .get fun w => ?_) _
    split
    · exact h.bind _ _
    · exact .bind (h.add (by rw [hk]; rfl) rfl _ _) fun _ => h.bind _ _
  case event spec =>
    simp only [event, hk]
    refine .forM_mem fun p hp => .bind (h.slot (by rw [hk]; rfl) ?_) fun _ => h.bind _ _
    exact Or.inr ⟨rfl, spec, hk, p, hp, rfl, rfl⟩
  case callFunction | makeArray | enumLiteral => exact h.outputLocals (by rw [hk]; rfl)
  case variableGet name =>
    simp only [variableGet, hk]
    refine .bind (h.variableOf (by rw [hk]; rfl) name) fun _ => ?_
    split
    · exact .forM (fun p => h.bind _ _) _
    · exact .pure _
  case variableSet name =>
    simp only [variableSet, hk]
    refine .bind (h.variableOf (by rw [hk]; rfl) name) fun _ => ?_
    split
    · exact h.bind _ _
    · exact .pure _
  case literal => exact .forM (fun _ => .bind (h.literal (by rw [hk]; rfl) _ _) fun _ => h.bind _ _) _
  all_goals exact .pure _

theorem andThen_respects (id : NodeId) (code : List Statement) :
    Respects R (andThen id code) := .bind .get fun _ => .pure _

theorem AdmitsEmit.initLocal (h : AdmitsEmit R id n) (l : LocalDecl) : Respects R (initLocal l) := by
  refine .bind .get fun w => ?_
  split
  · exact .bind (h.literal _ _) fun _ => .pure _
  · exact .pure _

theorem AdmitsEmit.dataInputs (h : AdmitsEmit R id n) : Respects R (dataInputs id) := by
  refine .bind .get fun w => ?_
  split
  · exact .mapM (fun p => h.input _) _
  · exact .pure _

/-- All that emitting the code of a node does. -/
theorem AdmitsEmit.emit (h : AdmitsEmit R id n) (hh : Registry.standard.handler? n = some handler) :
    Respects R (handler.emit env id n) := by
  rw [handler?_standard] at hh
  cases hk : n.kind <;> rw [hk] at hh <;> cases hh
  case functionEntry =>
    simp only [functionEntry, hk]
    refine .bind (.mapM h.initLocal _) fun _ => .bind .get fun w => ?_
    split
    · exact .pure _
    · exact andThen_respects _ _
  case functionResult =>
    refine .bind (.mapM (fun p => .bind .get fun w => ?_) _) fun _ => .pure _
    split
    · exact .bind (h.input _) fun _ => .pure _
    · exact .pure _
  case event => exact andThen_respects _ _
  case callFunction =>
    simp only [callFunction, hk]
    refine .bind h.dataInputs fun _ => .bind .get fun w => ?_
    split
    · exact andThen_respects _ _
    · exact .pure _
  case callEventGraph =>
    simp only [callEventGraph, hk]
    exact andThen_respects _ _
  case variableSet name =>
    simp only [variableSet, hk]
    refine .bind (variableTerm?_respects (h.slot (by rw [hk]; rfl) rfl) env name) fun _ => ?_
    split
    · exact .bind (h.input _) fun _ => andThen_respects _ _
    · exact andThen_respects _ _
  case persistentFrameAssign =>
    refine .bind (.mapM (fun p => ?_) _) fun _ => andThen_respects _ _
    exact .bind (h.slot (by rw [hk]; rfl) rfl _ _) fun _ => .bind (h.input _) fun _ => .pure _
  case branch =>
    simp only [branch]
    split
    · exact .bind (h.input _) fun _ => .bind .get fun _ => .pure _
    · exact .bind (h.literal _ _) fun _ => .bind .get fun _ => .pure _
  case sequence =>
    refine .bind .get fun w => ?_
    dsimp only
    split <;> exact .pure _
  case tunnelBoundary =>
    simp only [tunnelBoundary, hk]
    exact .bind .get fun _ => andThen_respects _ _
  case makeArray =>
    refine .bind h.dataInputs fun _ => .bind .get fun w => ?_
    split <;> exact .pure _
  case enumLiteral =>
    refine .bind .get fun w => ?_
    split
    · exact .bind (h.input _) fun _ => .pure _
    · exact .pure _
  all_goals exact .pure _

end Admits

theorem admitsRegister_frame (id : NodeId) (n : ScriptNode) : AdmitsRegister Frame id n where
  add _ _ _ _ := onTerms_frame _
  addLocal _ _ _ _ := onTerms_frame _
  literal _ _ _ := onTerms_frame _
  slot _ h := (classSlot_respects h.isClassScope _ _ _).frame
  bind _ _ w := w.frame_of_terms _
  report _ _ := (report_respects _ _ _).frame

theorem admitsEmit_grows (id : NodeId) (n : ScriptNode) : AdmitsEmit Grows id n :=
  ⟨literal_respects, inputTerm_respects,
    fun _ _ hscope name type => classSlot_respects hscope name type id⟩

end Handler

namespace Registry

open Build Working

theorem standard_registerNode (env : Env) (id : NodeId) :
    Respects Frame (standard.registerNode env id) := by
  refine .bind .get fun w => ?_
  split
  · exact .pure _
  · split
    · next hh => exact (Handler.admitsRegister_frame _ _).register hh
    · exact .pure _

theorem standard_emitNode (env : Env) (id : NodeId) : Respects Grows (standard.emitNode env id) := by
  refine .bind .get fun w => ?_
  split
  · exact .pure _
  · split
    · next hh => exact (Handler.admitsEmit_grows _ _).emit hh
    · exact .pure _

end Registry

end VisualScript
