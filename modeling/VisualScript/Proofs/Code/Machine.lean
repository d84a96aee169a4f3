import Mathlib.Data.List.Forall2
import Mathlib.Logic.Function.Iterate
import VisualScript.Code.Body

namespace VisualScript

/-- What statements do to a state, and what conditions tell about it. -/
structure Meaning (σ : Type) where
  run : Statement → σ → σ
  test : TermId → σ → Bool

/-- How a run comes to its end: by a return, because no flow is pending, or at a computed jump, which
leads to wherever a value says. -/
inductive Ending where
  | returned
  | ended
  | dispatched (index : TermId)
deriving DecidableEq

/-- A machine at some position with the flows that are pending, the latest first, or at its end. -/
inductive Config (π τ σ : Type) where
  | running (position : π) (pending : List τ) (state : σ)
  | done (ending : Ending) (state : σ)

variable {π π' τ τ' σ : Type}

namespace Config

def resume (enter : τ → Option π) : List τ → σ → Config π τ σ
  | [], state => .done .ended state
  | t :: rest, state => match enter t with
    | some p => .running p rest state
    | none => resume enter rest state

/-- Two machines stand at matching positions with matching flows in the same state, or both have come
to the same end. -/
def Matches (P : π → π' → Prop) (T : τ → τ' → Prop) : Config π τ σ → Config π' τ' σ → Prop
  | .running p pending state, .running p' pending' state' => P p p' ∧
      List.Forall₂ T pending pending' ∧ state' = state
  | .done ending state, .done ending' state' => ending' = ending ∧ state' = state
  | _, _ => False

def IsDone : Config π τ σ → Prop
  | .running _ _ _ => False
  | .done _ _ => True

def Enters (P : π → π' → Prop) (enter : τ → Option π) (enter' : τ' → Option π') (t : τ) (t' : τ') : Prop :=
  Option.Rel P (enter t) (enter' t')

theorem resume_matches {P : π → π' → Prop} {T : τ → τ' → Prop} {enter : τ → Option π}
    {enter' : τ' → Option π'} (h : ∀ t t', T t t' → Enters P enter enter' t t') {l : List τ}
    {l' : List τ'} (hl : List.Forall₂ T l l') (state : σ) :
    Matches P T (resume enter l state) (resume enter' l' state) := by
  induction hl with
  | nil => exact ⟨rfl, rfl⟩
  | @cons t t' rest rest' ht hrest ih =>
      have he := h t t' ht
      rw [Enters] at he
      rw [resume, resume]
      cases hp : enter t <;> cases hp' : enter' t' <;> rw [hp, hp'] at he
      · exact ih
      · cases he
      · cases he
      · cases he with
        | some hpos => exact ⟨hpos, hrest, rfl⟩

end Config

namespace Statement

variable {s : Statement}

def isStraight : Statement → Bool
  | .goto _ | .gotoIfNot _ _ | .pushFlow _ | .endOfThread | .computedGoto _ | .ret => false
  | _ => true

def isTransfer : Statement → Bool
  | .goto _ | .endOfThread | .computedGoto _ | .ret => true
  | _ => false

/-- Executes a statement. What follows it is at `next`. -/
def step (m : Meaning σ) (enter : JumpTarget → Option π) (next : π) (pending : List JumpTarget)
    (state : σ) :
    Statement → Config π JumpTarget σ
  | .goto t => .resume enter (t :: pending) state
  | .gotoIfNot c t =>
      if m.test c state then .running next pending state else .resume enter (t :: pending) state
  | .pushFlow t => .running next (t :: pending) state
  | .endOfThread => .resume enter pending state
  | .ret => .done .returned state
  | .computedGoto index => .done (.dispatched index) state
  | s => .running next pending (m.run s state)

theorem step_straight (m : Meaning σ) (enter : JumpTarget → Option π) (next : π)
    (pending : List JumpTarget) (state : σ) (h : s.isStraight = true) :
    s.step m enter next pending state = .running next pending (m.run s state) := by
  cases s <;> first | rfl | cases h

theorem target?_straight (h : s.isStraight = true) : s.target? = none := by
  cases s <;> first | rfl | cases h

theorem step_matches {P : π → π' → Prop} {T : JumpTarget → JumpTarget → Prop}
    {enter : JumpTarget → Option π} {enter' : JumpTarget → Option π'}
    (henter : ∀ t t', T t t' → Config.Enters P enter enter' t t') (m : Meaning σ)
    {ρ : JumpTarget → JumpTarget} (hs : ∀ t, s.target? = some t → T t (ρ t)) {next : π} {next' : π'}
    (hnext : s.isTransfer = false → P next next') {pending pending' : List JumpTarget}
    (hpending : List.Forall₂ T pending pending') (state : σ) :
    Config.Matches P T (s.step m enter next pending state)
      ((s.mapTarget ρ).step m enter' next' pending' state) := by
  cases s with
  | goto t => exact Config.resume_matches henter (.cons (hs t rfl) hpending) state
  | gotoIfNot c t =>
      simp only [step, mapTarget]
      split
      · exact ⟨hnext rfl, hpending, rfl⟩
      · exact Config.resume_matches henter (.cons (hs t rfl) hpending) state
  | pushFlow t => exact ⟨hnext rfl, .cons (hs t rfl) hpending, rfl⟩
  | endOfThread => exact Config.resume_matches henter hpending state
  | ret | computedGoto => exact ⟨rfl, rfl⟩
  | comment | debugSite | boundary | callFunction | assign | createArray | callEventGraph | custom =>
      exact ⟨hnext rfl, hpending, rfl⟩

end Statement

namespace Body

def enter : JumpTarget → Option Nat
  | .offset n => some n
  | _ => none

/-- One step through the statements of a body. Behind the last one the run ends. -/
def step (m : Meaning σ) (statements : List Statement) : Config Nat JumpTarget σ → Config Nat JumpTarget σ
  | .done ending state => .done ending state
  | .running pc pending state => match statements[pc]? with
    | some s => s.step m enter (pc + 1) pending state
    | none => .done .ended state

end Body

namespace Block

def find? (blocks : List Block) (id : NodeId) : Option Block := blocks.find? fun b => b.node = id

/-- A node is a position if it has a block; what is left of the block comes with it. -/
def enter (blocks : List Block) : JumpTarget → Option (NodeId × List Statement)
  | .node id => (find? blocks id).map fun b => (id, b.statements.map Prod.snd)
  | _ => none

def step (m : Meaning σ) (blocks : List Block) :
    Config (NodeId × List Statement) JumpTarget σ → Config (NodeId × List Statement) JumpTarget σ
  | .running (id, s :: rest) pending state => s.step m (enter blocks) (id, rest) pending state
  | .running (_, []) _ state => .done .ended state
  | .done ending state => .done ending state

end Block

section Simulation

variable {α β γ : Type} {a : α} {b : β}

/-- From `a` and `b` on, the two machines pass through related states: every state of the first is met
by the second, and the second always comes back to one. -/
structure Simulates (f : α → α) (g : β → β) (R : α → β → Prop) (a : α) (b : β) : Prop where
  forth : ∀ k, ∃ j, R (f^[k] a) (g^[j] b)
  back : ∀ j, ∃ k i, R (f^[k] a) (g^[j + i] b)

variable {f : α → α} {g : β → β} {R : α → β → Prop}

/-- One step of the first machine is met by some steps of the second. They may be none, but not for
ever: then the rank goes down, unless both have come to an end. -/
structure Ranked (f : α → α) (g : β → β) (R : α → β → Prop) (rank : α → Nat) (final : α → Prop) :
    Prop where
  stays : ∀ a b, R a b → final a → g b = b
  step : ∀ a b, R a b → ∃ j, R (f a) (g^[j] b) ∧ (final a ∨ 0 < j ∨ rank (f a) < rank a)

variable {rank : α → Nat} {final : α → Prop}

theorem Ranked.run (h : Ranked f g R rank final) (hab : R a b) (k : Nat) : ∃ j, R (f^[k] a) (g^[j] b) := by
  induction k generalizing a b with
  | zero => exact ⟨0, hab⟩
  | succ k ih =>
      obtain ⟨j, hj, _⟩ := h.step a b hab
      obtain ⟨i, hi⟩ := ih hj
      refine ⟨i + j, ?_⟩
      rw [Function.iterate_succ_apply, Function.iterate_add_apply]
      exact hi

theorem Ranked.moves (h : Ranked f g R rank final) (hab : R a b) : ∃ k i, R (f^[k] a) (g^[i + 1] b) := by
  induction hr : rank a using Nat.strongRecOn generalizing a with
  | ind r ih =>
      obtain ⟨j, hj, hend | hpos | hless⟩ := h.step a b hab
      · exact ⟨0, 0, by rwa [Function.iterate_one, h.stays a b hab hend]⟩
      · obtain ⟨i, rfl⟩ := Nat.exists_eq_add_of_lt hpos
        exact ⟨1, i, by simpa using hj⟩
      · cases j with
        | succ i => exact ⟨1, i, hj⟩
        | zero =>
            obtain ⟨k, i, hk⟩ := ih (rank (f a)) (hr ▸ hless) hj rfl
            exact ⟨k + 1, i, hk⟩

theorem Ranked.simulates (h : Ranked f g R rank final) (hab : R a b) : Simulates f g R a b := by
  refine ⟨h.run hab, fun j => ?_⟩
  induction j with
  | zero => exact ⟨0, 0, hab⟩
  | succ j ih =>
      obtain ⟨k, i, hk⟩ := ih
      cases i with
      | succ i => exact ⟨k, i, by rwa [Nat.add_right_comm] ⟩
      | zero =>
          obtain ⟨k', i, hk'⟩ := h.moves hk
          refine ⟨k' + k, i, ?_⟩
          rw [Function.iterate_add_apply, show j + 1 + i = i + 1 + j by omega, Function.iterate_add_apply]
          exact hk'

theorem Simulates.mono {S : α → β → Prop} (h : Simulates f g R a b) (hRS : ∀ a b, R a b → S a b) :
    Simulates f g S a b := by
  refine ⟨fun k => ?_, fun j => ?_⟩
  · obtain ⟨j, hj⟩ := h.forth k
    exact ⟨j, hRS _ _ hj⟩
  · obtain ⟨k, i, hk⟩ := h.back j
    exact ⟨k, i, hRS _ _ hk⟩

theorem Simulates.trans {e : γ → γ} {S : β → γ → Prop} {c : γ} (hab : Simulates f g R a b)
    (hS : ∀ b c, S b c → Simulates g e S b c) (hbc : S b c) :
    Simulates f e (fun a c => ∃ b, R a b ∧ S b c) a c := by
  refine ⟨fun k => ?_, fun j => ?_⟩
  · obtain ⟨j, hj⟩ := hab.forth k
    obtain ⟨i, hi⟩ := (hS b c hbc).forth j
    exact ⟨i, _, hj, hi⟩
  · obtain ⟨n, i, hn⟩ := (hS b c hbc).back j
    obtain ⟨p, q, hp⟩ := hab.back n
    -- The last machine goes on from where it met the second one.
    obtain ⟨r, hr⟩ := (hS _ _ hn).forth q
    rw [← Function.iterate_add_apply, ← Function.iterate_add_apply, Nat.add_comm q n,
      Nat.add_comm r, Nat.add_assoc] at hr
    exact ⟨p, i + r, _, hp, hr⟩

end Simulation

end VisualScript
