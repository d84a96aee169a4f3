import VisualScript.Proofs.Code.Linking

namespace VisualScript

variable {σ : Type}

/-- What a node does behind its own statements: it returns, jumps to where a value says, goes to the
first of some nodes while the others wait, or chooses by a condition. -/
inductive Exit where
  | ret
  | dispatch (index : TermId)
  | flow (targets : List NodeId)
  | branch (condition : TermId) (yes no : Option NodeId)
deriving Inhabited

/-- A function as its graph tells it: the nodes that run, the statements of each and its exit. -/
structure FlowGraph where
  runs : NodeId → Bool
  code : NodeId → List Statement
  exit : NodeId → Exit

def Meaning.runAll (m : Meaning σ) (code : List Statement) (state : σ) : σ :=
  code.foldl (fun state s => m.run s state) state

namespace FlowGraph

def enter (F : FlowGraph) (id : NodeId) : Option NodeId := if F.runs id then some id else none

/-- Runs a node and goes on along the graph. A flow to nowhere, or to a node that does not run, is over. -/
def step (m : Meaning σ) (F : FlowGraph) : Config NodeId NodeId σ → Config NodeId NodeId σ
  | .done ending state => .done ending state
  | .running id pending state =>
      let state := m.runAll (F.code id) state
      match F.exit id with
      | .ret => .done .returned state
      | .dispatch index => .done (.dispatched index) state
      | .flow targets => .resume F.enter (targets ++ pending) state
      | .branch c yes no => .resume F.enter ((if m.test c state then yes else no).toList ++ pending) state

end FlowGraph

namespace Exit

def target : Option NodeId → JumpTarget
  | some id => .node id
  | none => .endOfThread

def code : Exit → List Statement
  | .ret => [.ret]
  | .dispatch index => [.computedGoto index]
  | .flow [] => [.endOfThread]
  | .flow (first :: rest) => rest.reverse.map (fun id => .pushFlow (.node id)) ++ [.goto (.node first)]
  | .branch c yes no => [.gotoIfNot c (target no), .jump (target yes)]

end Exit

namespace Block

variable {blocks : List Block}

/-- There is a block for each node that runs: its statements, then its exit. -/
structure Realises (blocks : List Block) (F : FlowGraph) : Prop where
  runs : ∀ id, F.runs id = true ↔ ∃ b ∈ blocks, b.node = id
  code : ∀ b ∈ blocks, b.statements.map Prod.snd = F.code b.node ++ (F.exit b.node).code
  straight : ∀ b ∈ blocks, ∀ s ∈ F.code b.node, s.isStraight = true

theorem iterate_straight (m : Meaning σ) (blocks : List Block) (id : NodeId) (code rest : List Statement)
    (h : ∀ s ∈ code, s.isStraight = true) (pending : List JumpTarget) (state : σ) :
    (step m blocks)^[code.length] (.running (id, code ++ rest) pending state) =
      .running (id, rest) pending (m.runAll code state) := by
  induction code generalizing state with
  | nil => rfl
  | cons s tail ih =>
      obtain ⟨hs, htail⟩ := List.forall_mem_cons.mp h
      rw [List.length_cons, Function.iterate_succ_apply]
      have hstep : step m blocks (.running (id, s :: tail ++ rest) pending state) =
          .running (id, tail ++ rest) pending (m.run s state) := Statement.step_straight m _ _ _ _ hs
      rw [hstep, ih htail]
      rfl

theorem iterate_push (m : Meaning σ) (blocks : List Block) (id : NodeId) (targets : List NodeId)
    (rest : List Statement) (pending : List JumpTarget) (state : σ) :
    (step m blocks)^[targets.length]
      (.running (id, targets.map (fun id => .pushFlow (.node id)) ++ rest) pending state) =
      .running (id, rest) (targets.reverse.map .node ++ pending) state := by
  induction targets generalizing pending with
  | nil => rfl
  | cons t tail ih =>
      rw [List.length_cons, Function.iterate_succ_apply]
      have hstep : step m blocks
          (.running (id, (t :: tail).map (fun id => .pushFlow (.node id)) ++ rest) pending state) =
          .running (id, tail.map (fun id => .pushFlow (.node id)) ++ rest) (.node t :: pending)
            state := rfl
      rw [hstep, ih, List.reverse_cons, List.map_append, List.append_assoc]
      rfl

/-- An exit takes up the flows it names before those that were pending. -/
theorem iterate_exit (m : Meaning σ) (blocks : List Block) (id : NodeId) (e : Exit)
    (pending : List JumpTarget) (state : σ) :
    ∃ j, (step m blocks)^[j + 1] (.running (id, e.code) pending state) = match e with
      | .ret => .done .returned state
      | .dispatch index => .done (.dispatched index) state
      | .flow targets => .resume (enter blocks) (targets.map .node ++ pending) state
      | .branch c yes no =>
          .resume (enter blocks) ((if m.test c state then yes else no).toList.map .node ++ pending)
            state := by
  cases e with
  | ret => exact ⟨0, rfl⟩
  | dispatch index => exact ⟨0, rfl⟩
  | flow targets =>
      cases targets with
      | nil => exact ⟨0, rfl⟩
      | cons first rest =>
          -- The flows that wait are pushed last first, so they come back in order.
          have hpush := iterate_push m blocks id rest.reverse [.goto (.node first)] pending state
          rw [List.reverse_reverse] at hpush
          refine ⟨rest.reverse.length, ?_⟩
          rw [Function.iterate_succ_apply', Exit.code, hpush]
          rfl
  | branch c yes no =>
      cases hc : m.test c state with
      | true =>
          refine ⟨1, ?_⟩
          have hstep : step m blocks (.running (id, Exit.code (.branch c yes no)) pending state) =
              .running (id, [.jump (Exit.target yes)]) pending state := by
            simp [step, Exit.code, Statement.step, hc]
          rw [Function.iterate_succ_apply, Function.iterate_one, hstep]
          simp only [hc, if_true]
          cases yes <;> rfl
      | false =>
          refine ⟨0, ?_⟩
          rw [Nat.zero_add, Function.iterate_one]
          simp only [step, Exit.code, Statement.step, hc]
          cases no <;> rfl

def Starts (blocks : List Block) (id : NodeId) (p : NodeId × List Statement) : Prop :=
  ∃ b ∈ blocks, b.node = id ∧ p = (id, b.statements.map Prod.snd)

variable {F : FlowGraph}

theorem Realises.enters (h : Realises blocks F) (id : NodeId) :
    Config.Enters (Starts blocks) F.enter (enter blocks) id (.node id) := by
  rw [Config.Enters, FlowGraph.enter, enter, find?]
  cases hb : blocks.find? fun b => b.node = id with
  | none =>
      have hruns : F.runs id ≠ true := fun hr => by
        obtain ⟨b, hmem, hid⟩ := (h.runs id).mp hr
        simpa [hid] using List.find?_eq_none.mp hb b hmem
      rw [if_neg hruns]
      exact .none
  | some b =>
      have hmem := List.mem_of_find?_eq_some hb
      have hid : b.node = id := by simpa using List.find?_some hb
      rw [if_pos ((h.runs id).mpr ⟨b, hmem, hid⟩)]
      exact .some ⟨b, hmem, hid, rfl⟩

/-- A step along the graph is a run through the block of the node. -/
theorem Realises.ranked (h : Realises blocks F) (m : Meaning σ) :
    Ranked (F.step m) (step m blocks) (Config.Matches (Starts blocks) fun id t => t = .node id)
      (fun _ => 0)
      Config.IsDone where
  stays a b hab ha := by
    cases a with
    | running => cases ha
    | done =>
        cases b with
        | running => cases hab
        | done => rfl
  step a b hab := by
    match a, b with
    | .done _ _, .done _ _ => exact ⟨0, hab, Or.inl trivial⟩
    | .running id pending state, .running _ pending' _ =>
        obtain ⟨⟨b, hb, rfl, rfl⟩, hpending, rfl⟩ := hab
        obtain ⟨j, hj⟩ := iterate_exit m blocks b.node (F.exit b.node) pending'
          (m.runAll (F.code b.node) _)
        have htargets (targets : List NodeId) :
            List.Forall₂ (fun id t => t = JumpTarget.node id) (targets ++ pending)
              (targets.map .node ++ pending') := by
          refine List.rel_append ?_ hpending
          exact List.forall₂_map_right_iff.mpr (List.forall₂_same.mpr fun _ _ => rfl)
        have hresume (targets : List NodeId) (state : σ) :
            Config.Matches (Starts blocks) (fun id t => t = .node id)
              (.resume F.enter (targets ++ pending) state)
              (.resume (enter blocks) (targets.map .node ++ pending') state) :=
          Config.resume_matches (fun id t ht => ht ▸ h.enters id) (htargets targets) state
        -- First the straight code, then the jumps of the exit, of which there is one at least.
        refine ⟨j + 1 + (F.code b.node).length, ?_, Or.inr (Or.inl (by omega))⟩
        rw [Function.iterate_add_apply, h.code b hb,
          iterate_straight m blocks _ _ _ (h.straight b hb), hj, FlowGraph.step]
        cases F.exit b.node with
        | ret | dispatch => exact ⟨rfl, rfl⟩
        | flow targets => exact hresume targets _
        | branch c yes no => exact hresume _ _

end Block

namespace Exit

theorem code_closed (e : Exit) : ∃ front s, e.code = front ++ [s] ∧ s.isTransfer = true := by
  cases e with
  | ret | dispatch => exact ⟨[], _, rfl, rfl⟩
  | flow targets =>
      cases targets with
      | nil => exact ⟨[], _, rfl, rfl⟩
      | cons first rest => exact ⟨_, _, rfl, rfl⟩
  | branch c yes no =>
      refine ⟨[.gotoIfNot c (target no)], _, rfl, ?_⟩
      cases yes <;> rfl

theorem code_jumps (e : Exit) :
    ∀ s ∈ e.code, s.isStraight = false ∧ ∀ n, s.target? ≠ some (.offset n) := by
  intro s hs
  cases e with
  | ret | dispatch =>
      cases List.mem_singleton.mp hs
      exact ⟨rfl, nofun⟩
  | flow targets =>
      cases targets with
      | nil =>
          cases List.mem_singleton.mp hs
          exact ⟨rfl, nofun⟩
      | cons first rest =>
          rcases List.mem_append.mp hs with hs | hs
          · obtain ⟨id, _, rfl⟩ := List.mem_map.mp hs
            exact ⟨rfl, by simp [Statement.target?]⟩
          · cases List.mem_singleton.mp hs
            exact ⟨rfl, by simp [Statement.target?]⟩
  | branch c yes no =>
      rcases List.mem_cons.mp hs with rfl | hs
      · exact ⟨rfl, by cases no <;> simp [Statement.target?, target]⟩
      · cases List.mem_singleton.mp hs
        cases yes <;> exact ⟨rfl, by simp [Statement.target?, Statement.jump, target]⟩

end Exit

namespace Block

variable {blocks : List Block} {F : FlowGraph}

theorem Realises.linkable (h : Realises blocks F) (hnodup : (blocks.map Block.node).Nodup) :
    Linkable blocks where
  nodup := hnodup
  closed b hb := by
    obtain ⟨front, s, hs, htransfer⟩ := (F.exit b.node).code_closed
    exact ⟨F.code b.node ++ front, s, by rw [h.code b hb, hs, List.append_assoc], htransfer⟩
  plain b hb s hs n := by
    rw [h.code b hb] at hs
    rcases List.mem_append.mp hs with hs | hs
    · rw [Statement.target?_straight (h.straight b hb s hs)]
      nofun
    · exact ((F.exit b.node).code_jumps s hs).2 n

/-- The block that starts where the body is belongs to the node where the graph is, and so for what is
pending. -/
def Follows (body : Body) : Config NodeId NodeId σ → Config Nat JumpTarget σ → Prop :=
  Config.Matches (fun id pc => body.blockStart? id = some pc) fun id t => t =
    Body.resolve body.blockStarts (.node id)

theorem Linkable.blockStart_iff (h : Linkable blocks) (originOf : NodeId → Option Origin)
    (id : NodeId) (pc : Nat) :
    (Body.link blocks originOf).blockStart? id = some pc ↔ ∃ p, Starts blocks id p ∧
      Stands blocks p pc := by
  constructor
  · intro hstart
    by_cases hid : ∃ b ∈ blocks, b.node = id
    · obtain ⟨b, hb, rfl⟩ := hid
      obtain ⟨i, hi⟩ := List.mem_iff_getElem?.mp hb
      rw [blockStart_of_nodup h.nodup originOf hi] at hstart
      exact ⟨_, ⟨b, hb, rfl, rfl⟩, Option.some.inj hstart ▸ h.stands_start hi⟩
    · rw [no_blockStart_of_nodup h.nodup originOf fun b hb he => hid ⟨b, hb, he⟩] at hstart
      cases hstart
  · rintro ⟨_, ⟨b, hb, rfl, rfl⟩, _, i, b', front, hi, hnode, hs, rfl⟩
    have hbb : b' = b := List.inj_on_of_nodup_map h.nodup (List.mem_of_getElem? hi) hb hnode
    subst hbb
    -- All of the block is left, so nothing of it lies behind.
    have hfront : front = [] := by simpa using hs.symm
    rw [blockStart_of_nodup h.nodup originOf hi, hfront, List.length_nil, Nat.add_zero]

theorem Linkable.follows_iff (h : Linkable blocks) (originOf : NodeId → Option Origin)
    (a : Config NodeId NodeId σ) (b : Config Nat JumpTarget σ) :
    Follows (Body.link blocks originOf) a b ↔ ∃ c,
    Config.Matches (Starts blocks) (fun id t => t = .node id) a c ∧
      Config.Matches (Stands blocks) (Resolved (Body.link blocks originOf).blockStarts) c b := by
  constructor
  · intro hab
    match a, b with
    | .done ending state, .done _ _ => exact ⟨.done ending state, ⟨rfl, rfl⟩, hab⟩
    | .running id pending state, .running pc pending' _ =>
        obtain ⟨hstart, hpending, rfl⟩ := hab
        obtain ⟨p, hp, hpc⟩ := (h.blockStart_iff originOf id pc).mp hstart
        refine ⟨.running p (pending.map .node) _, ⟨hp, ?_, rfl⟩, hpc, ?_, rfl⟩
        · exact List.forall₂_map_right_iff.mpr (List.forall₂_same.mpr fun _ _ => rfl)
        · exact List.forall₂_map_left_iff.mpr (hpending.imp fun _ _ ht => ⟨nofun, ht⟩)
  · rintro ⟨c, hac, hcb⟩
    match a, c, b with
    | .done _ _, .done _ _, .done _ _ => exact ⟨hcb.1.trans hac.1, hcb.2.trans hac.2⟩
    | .running id pending _, .running p mid _, .running pc pending' _ =>
        obtain ⟨hp, hmid, rfl⟩ := hac
        obtain ⟨hpc, hpending, rfl⟩ := hcb
        refine ⟨(h.blockStart_iff originOf id pc).mpr ⟨p, hp, hpc⟩, ?_, rfl⟩
        induction hmid generalizing pending' with
        | nil =>
            cases hpending
            exact .nil
        | cons ht _ ih =>
            cases hpending with
            | cons ht' hrest => exact .cons (ht ▸ ht'.2) (ih _ hrest)

theorem Realises.simulates (h : Realises blocks F) (hnodup : (blocks.map Block.node).Nodup)
    (originOf : NodeId → Option Origin) (m : Meaning σ) {a : Config NodeId NodeId σ}
    {b : Config Nat JumpTarget σ} (hab : Follows (Body.link blocks originOf) a b) :
    Simulates (F.step m) (Body.step m (Body.link blocks originOf).statements)
      (Follows (Body.link blocks originOf)) a b := by
  have hlink := h.linkable hnodup
  obtain ⟨c, hac, hcb⟩ := (hlink.follows_iff originOf a b).mp hab
  have hblocks := (h.ranked m).simulates hac
  have hbody := fun c b (hcb :
    Config.Matches (Stands blocks) (Resolved (Body.link blocks originOf).blockStarts) c b) =>
    (hlink.ranked originOf m).simulates hcb
  exact (hblocks.trans hbody hcb).mono fun a b => (hlink.follows_iff originOf a b).mpr

end Block

/-- Jumps stay as they are, and nothing else becomes one. -/
structure Statement.KeepsJumps (φ : Statement → Statement) : Prop where
  jump : ∀ s, s.isStraight = false → φ s = s
  straight : ∀ s, s.isStraight = true → (φ s).isStraight = true

def Meaning.after (m : Meaning σ) (φ : Statement → Statement) : Meaning σ :=
  { m with run := fun s => m.run (φ s) }

def FlowGraph.mapCode (φ : Statement → Statement) (F : FlowGraph) : FlowGraph :=
  { F with code := fun id => (F.code id).map φ }

variable {φ : Statement → Statement}

theorem FlowGraph.step_mapCode (φ : Statement → Statement) (F : FlowGraph) (m : Meaning σ) :
    (F.mapCode φ).step m = F.step (m.after φ) := by
  funext c
  cases c with
  | done => rfl
  | running id pending state =>
      have hrun : m.runAll ((F.code id).map φ) state = (m.after φ).runAll (F.code id) state :=
        List.foldl_map
      simp only [step, mapCode, hrun]
      rfl

theorem Body.step_map (h : Statement.KeepsJumps φ) (m : Meaning σ) (statements : List Statement) :
    Body.step m (statements.map φ) = Body.step (m.after φ) statements := by
  funext c
  cases c with
  | done => rfl
  | running pc pending state =>
      rw [step, step, List.getElem?_map]
      cases statements[pc]? with
      | none => rfl
      | some s =>
          simp only [Option.map_some]
          cases hs : s.isStraight with
          | true =>
              rw [Statement.step_straight m _ _ _ _ (h.straight s hs),
                Statement.step_straight _ _ _ _ _ hs]
              rfl
          | false =>
              rw [h.jump s hs]
              cases s <;> first | rfl | cases hs

theorem Block.Realises.simulates_map {blocks : List Block} {F : FlowGraph} (h : Realises blocks F)
    (hnodup : (blocks.map Block.node).Nodup) (originOf : NodeId → Option Origin)
    (hφ : Statement.KeepsJumps φ) (m : Meaning σ) {id : NodeId} (hid : F.runs id = true) :
    ∃ pc, (Body.link blocks originOf).blockStart? id = some pc ∧ ∀ (pending : List NodeId) (state : σ),
      Simulates ((F.mapCode φ).step m) (Body.step m ((Body.link blocks originOf).statements.map φ))
        (Follows (Body.link blocks originOf)) (.running id pending state)
        (.running pc (pending.map fun k => Body.resolve (Body.link blocks originOf).blockStarts
          (.node k)) state) := by
  obtain ⟨b, hb, rfl⟩ := (h.runs id).mp hid
  obtain ⟨i, hi⟩ := List.mem_iff_getElem?.mp hb
  have hstart := blockStart_of_nodup hnodup originOf hi
  refine ⟨_, hstart, fun pending state => ?_⟩
  rw [FlowGraph.step_mapCode, Body.step_map hφ]
  refine h.simulates hnodup originOf (m.after φ) ⟨hstart, ?_, rfl⟩
  exact List.forall₂_map_right_iff.mpr (List.forall₂_same.mpr fun _ _ => rfl)

end VisualScript
