import VisualScript.Proofs.Code.Linking

namespace VisualScript

variable {π π' τ τ' : Type}

namespace Statement

def isGoto : Statement → Bool
  | .goto _ => true
  | _ => false

def seenAfter (s : Statement) (seen : List Statement) : List Statement :=
  if s.isGoto then seen else seen ++ [s]

theorem prefix_seenAfter (s : Statement) (seen : List Statement) : seen <+: s.seenAfter seen := by
  rw [seenAfter]
  split
  · exact List.prefix_rfl
  · exact List.prefix_append _ _

end Statement

/-- Statements change nothing, and an oracle that knows what was seen decides on the conditions. -/
def Meaning.told (oracle : List Statement → TermId → Bool) : Meaning (List Statement) where
  run _ seen := seen
  test c seen := oracle seen c

namespace Config

def seen : Config π τ (List Statement) → List Statement
  | .running _ _ seen => seen
  | .done _ seen => seen

def look (next : π → Option Statement) : Config π τ (List Statement) → Config π τ (List Statement)
  | .running p pending seen => .running p pending (((next p).map fun s => s.seenAfter seen).getD seen)
  | .done ending seen => .done ending seen

theorem prefix_look (next : π → Option Statement) (c : Config π τ (List Statement)) :
    c.seen <+: (c.look next).seen := by
  cases c with
  | done => exact List.prefix_rfl
  | running p pending seen =>
      rw [look]
      cases next p with
      | none => exact List.prefix_rfl
      | some s => exact s.prefix_seenAfter seen

theorem seen_resume (enter : τ → Option π) (pending : List τ) (seen : List Statement) :
    (resume enter pending seen).seen = seen := by
  induction pending with
  | nil => rfl
  | cons t rest ih =>
      rw [resume]
      cases enter t with
      | none => exact ih
      | some => rfl

/-- The statement is seen in the run, as the one at this place. -/
def Shows (f : Config π τ (List Statement) → Config π τ (List Statement))
    (c : Config π τ (List Statement)) (n : Nat) (s : Statement) : Prop :=
  ∃ k, (f^[k] c).seen[n]? = some s

/-- The run comes to an end, and this is all that is seen of it. -/
def Halts (f : Config π τ (List Statement) → Config π τ (List Statement))
    (c : Config π τ (List Statement)) (ending : Ending) (seen : List Statement) : Prop :=
  ∃ k, f^[k] c = .done ending seen

/-- The same is seen of two runs, finite or not, and they end alike. -/
structure Alike (f : Config π τ (List Statement) → Config π τ (List Statement))
    (g : Config π' τ' (List Statement) → Config π' τ' (List Statement)) (a : Config π τ (List Statement))
    (b : Config π' τ' (List Statement)) : Prop where
  shows : ∀ n s, Shows f a n s ↔ Shows g b n s
  halts : ∀ ending seen, Halts f a ending seen ↔ Halts g b ending seen

variable {P : π → π' → Prop} {T : τ → τ' → Prop}
    {f : Config π τ (List Statement) → Config π τ (List Statement)}
  {g : Config π' τ' (List Statement) → Config π' τ' (List Statement)} {a : Config π τ (List Statement)}
  {b : Config π' τ' (List Statement)}

theorem Matches.seen_eq (h : Matches P T a b) : b.seen = a.seen := by
  cases a <;> cases b
  · exact h.2.2
  · cases h
  · cases h
  · exact h.2

theorem Matches.done_iff (h : Matches P T a b) (ending : Ending) (seen : List Statement) :
    a = .done ending seen ↔ b = .done ending seen := by
  cases a <;> cases b
  · simp
  · cases h
  · cases h
  · obtain ⟨rfl, rfl⟩ := h
    simp

theorem alike_of_simulates (h : Simulates f g (Matches P T) a b) (hgrows : ∀ c, c.seen <+: (g c).seen)
    (hdone : ∀ ending seen, g (.done ending seen) = .done ending seen) : Alike f g a b := by
  have hlater (c : Config π' τ' (List Statement)) (i : Nat) : c.seen <+: (g^[i] c).seen := by
    induction i generalizing c with
    | zero => exact List.prefix_rfl
    | succ i ih => exact (hgrows c).trans (ih (g c))
  refine ⟨fun n s => ⟨?_, ?_⟩, fun ending seen => ⟨?_, ?_⟩⟩
  · rintro ⟨k, hk⟩
    obtain ⟨j, hj⟩ := h.forth k
    exact ⟨j, hj.seen_eq ▸ hk⟩
  · rintro ⟨j, hj⟩
    obtain ⟨k, i, hk⟩ := h.back j
    -- The second machine goes on to where the first one is, and still has what it has seen.
    have hgrown := hlater (g^[j] b) i
    rw [← Function.iterate_add_apply, Nat.add_comm, hk.seen_eq] at hgrown
    obtain ⟨later, hlater⟩ := hgrown
    exact ⟨k, by rw [← hlater, List.getElem?_append_left (List.getElem?_eq_some_iff.mp hj).1, hj]⟩
  · rintro ⟨k, hk⟩
    obtain ⟨j, hj⟩ := h.forth k
    exact ⟨j, (hj.done_iff ending seen).mp hk⟩
  · rintro ⟨j, hj⟩
    obtain ⟨k, i, hk⟩ := h.back j
    rw [Nat.add_comm, Function.iterate_add_apply, hj, Function.iterate_fixed (hdone ending seen)] at hk
    exact ⟨k, (hk.done_iff ending seen).mpr rfl⟩

end Config

theorem Statement.seen_step (oracle : List Statement → TermId → Bool)
    (enter : JumpTarget → Option π) (next : π) (pending : List JumpTarget) (seen : List Statement)
    (s : Statement) :
    (s.step (.told oracle) enter next pending seen).seen = seen := by
  cases s with
  | goto | endOfThread => exact Config.seen_resume _ _ _
  | gotoIfNot =>
      rw [Statement.step]
      split
      · rfl
      · exact Config.seen_resume _ _ _
  | _ => rfl

def Body.watched (oracle : List Statement → TermId → Bool) (statements : List Statement)
    (c : Config Nat JumpTarget (List Statement)) : Config Nat JumpTarget (List Statement) :=
  step (.told oracle) statements (c.look fun pc => statements[pc]?)

theorem Body.prefix_watched (oracle : List Statement → TermId → Bool) (statements : List Statement)
    (c : Config Nat JumpTarget (List Statement)) : c.seen <+: (watched oracle statements c).seen := by
  refine (c.prefix_look fun pc => statements[pc]?).trans ?_
  cases c with
  | done => exact List.prefix_rfl
  | running pc pending seen =>
      rw [watched, Config.look, step]
      cases statements[pc]? with
      | none => exact List.prefix_rfl
      | some s =>
          simp only
          rw [s.seen_step]
          exact List.prefix_rfl

namespace Block

variable {blocks : List Block}

/-- A step through blocks that is watched. Jumps are seen with the targets they are given in the end. -/
def watched (oracle : List Statement → TermId → Bool) (resolve : JumpTarget → JumpTarget)
    (blocks : List Block) (c : Config (NodeId × List Statement) JumpTarget (List Statement)) :
    Config (NodeId × List Statement) JumpTarget (List Statement) :=
  step (.told oracle) blocks (c.look fun p => p.2.head?.map (Statement.mapTarget resolve))

theorem Linkable.watched (h : Linkable blocks) (originOf : NodeId → Option Origin)
    (oracle : List Statement → TermId → Bool) :
    Ranked (Block.watched oracle (Body.resolve (Body.link blocks originOf).blockStarts) blocks)
      (Body.watched oracle (Body.link blocks originOf).statements)
      (Config.Matches (Stands blocks) (Resolved (Body.link blocks originOf).blockStarts))
        (rank blocks) Config.IsDone := by
  refine h.ranked_of originOf (.told oracle) Statement.seenAfter (fun _ _ _ _ _ => rfl)
    (fun _ _ _ _ hs => ?_) (fun _ _ => rfl)
    (fun _ _ => rfl) fun _ _ => rfl
  rw [Body.watched, Config.look, hs, Body.step, hs]
  rfl

/-- What is left of a block in front of another: all of it, or what comes before its last statement
if that is the jump to the other block. -/
inductive Kept (b : Block) (next : Option Block) : List (NodeId × Statement) → Prop
  | whole (h : ∀ site b', next = some b' → b.statements.getLast? ≠ some (site, .goto (.node b'.node))) :
      Kept b next b.statements
  | dropped {front : List (NodeId × Statement)} {site : NodeId} {b' : Block} (hnext : next = some b')
      (h : b.statements = front ++ [(site, .goto (.node b'.node))]) : Kept b next front

theorem kept_trim (b : Block) (next : Option Block) : Kept b next (b.trim next).statements := by
  cases next with
  | none => exact .whole fun _ _ h => by cases h
  | some b' =>
      by_cases hg : b.lastIsGotoTo b'.node = true
      · obtain ⟨site, hlast⟩ := (lastIsGotoTo_iff b b'.node).mp hg
        have htrim : (b.trim (some b')).statements = b.statements.dropLast := by
          simp only [trim, Option.any_some, hg, if_true]
        rw [htrim]
        exact .dropped rfl (List.dropLast_append_getLast? _ hlast).symm
      · have htrim : b.trim (some b') = b := by simp [trim, hg]
        rw [htrim]
        refine .whole fun site b'' he hlast => hg ((lastIsGotoTo_iff b b'.node).mpr ⟨site, ?_⟩)
        cases he
        exact hlast

/-- A body consists of what is left of the blocks, in their order. Each jump leads to the place of a
block, or it ends the thread if there is no block for its node. -/
structure Arranged (blocks : List Block) (originOf : NodeId → Option Origin)
    (parts : List (List (NodeId × Statement))) (body : Body) : Prop where
  length : parts.length = blocks.length
  kept : ∀ {i : Nat} {b : Block}, blocks[i]? = some b → ∃ part, parts[i]? = some part ∧
    Kept b blocks[i + 1]? part
  statements : body.statements = parts.flatten.map fun s => s.2.mapTarget (Body.resolve body.blockStarts)
  statementNodes : body.statementNodes = parts.flatten.map Prod.fst
  origins : body.origins = body.statementNodes.map originOf
  keys : body.blockStarts.keys = blocks.map Block.node
  starts : ∀ {i : Nat} {b : Block}, blocks[i]? = some b →
    body.blockStart? b.node = some (parts.take i).flatten.length
  ordered : body.blockStarts.values.Pairwise (· ≤ ·)
  resolved : ∀ {b : Block}, b ∈ blocks → ∃ start, body.blockStart? b.node = some start ∧
    Body.resolve body.blockStarts (.node b.node) = .offset start
  unresolved : ∀ {id : NodeId}, (∀ b ∈ blocks, b.node ≠ id) →
    Body.resolve body.blockStarts (.node id) = .endOfThread
  no_node : ∀ s ∈ body.statements, ∀ id, s.target? ≠ some (.node id)

theorem starts_ordered (o : Nat) (l : List Block) :
    ((starts o l).map Prod.snd).Pairwise (· ≤ ·) ∧ ∀ n ∈ (starts o l).map Prod.snd, o ≤ n := by
  induction l generalizing o with
  | nil => exact ⟨.nil, List.forall_mem_nil _⟩
  | cons b rest ih =>
      obtain ⟨hrest, hle⟩ := ih (o + b.statements.length)
      have hlater : ∀ n ∈ (starts (o + b.statements.length) rest).map Prod.snd, o ≤ n :=
        fun n hn => Nat.le_trans (Nat.le_add_right _ _) (hle n hn)
      rw [starts, List.map_cons]
      exact ⟨.cons hlater hrest, List.forall_mem_cons.mpr ⟨Nat.le_refl o, hlater⟩⟩

theorem target?_mapTarget (f : JumpTarget → JumpTarget) (s : Statement) :
    (s.mapTarget f).target? = s.target?.map f := by
  cases s <;> rfl

theorem resolve_ne_node (starts : OrderedMap NodeId Nat) (t : JumpTarget) (id : NodeId) :
    Body.resolve starts t ≠ .node id := by
  cases t with
  | node k =>
      rw [Body.resolve]
      cases starts.get? k <;> simp
  | offset | endOfThread => simp [Body.resolve]

theorem Linkable.arranged (h : Linkable blocks) (originOf : NodeId → Option Origin) :
    Arranged blocks originOf ((fallThrough blocks).map Block.statements) (Body.link blocks originOf) := by
  have hentries : (Body.link blocks originOf).blockStarts.entries = starts 0 (fallThrough blocks) :=
    OrderedMap.entries_ofList (nodup_starts h.nodup)
  have hnodes := congrArg List.length (map_node_fallThrough blocks)
  rw [List.length_map, List.length_map] at hnodes
  refine ⟨?_, fun {i b} hb => ?_, ?_, ?_, ?_, ?_, fun {i b} hb => ?_, ?_, fun {b} hb => ?_,
    fun {id} hid => ?_, fun s hs id ht => ?_⟩
  · rw [List.length_map, hnodes]
  · refine ⟨_, ?_, kept_trim b _⟩
    rw [List.getElem?_map, getElem?_fallThrough, hb, Option.map_some, Option.map_some]
  · rw [← List.flatMap_def]
    rfl
  · rw [← List.flatMap_def]
    rfl
  · rw [Body.link, List.map_map]
    rfl
  · rw [OrderedMap.keys, hentries, map_fst_starts, map_node_fallThrough]
  · rw [blockStart_of_nodup h.nodup originOf hb, offset, List.flatMap_def, List.map_take]
  · rw [OrderedMap.values, hentries]
    exact (starts_ordered 0 _).1
  · obtain ⟨i, hi⟩ := List.mem_iff_getElem?.mp hb
    have hstart := blockStart_of_nodup h.nodup originOf hi
    refine ⟨_, hstart, ?_⟩
    rw [Body.blockStart?] at hstart
    rw [Body.resolve, hstart]
  · have hstart := no_blockStart_of_nodup h.nodup originOf hid
    rw [Body.blockStart?] at hstart
    rw [Body.resolve, hstart]
  · obtain ⟨t, -, rfl⟩ := List.mem_map.mp hs
    rw [target?_mapTarget] at ht
    obtain ⟨u, -, hu⟩ := Option.map_eq_some_iff.mp ht
    exact resolve_ne_node _ u id hu

/-- Linking preserves the meaning of blocks. Of their statements only jumps to the block behind are
dropped; and from every block on, with whatever is pending and however conditions turn out, the body
shows just what the blocks show. -/
theorem Linkable.link_preserves_runs (h : Linkable blocks) (originOf : NodeId → Option Origin) :
    (∃ parts, Arranged blocks originOf parts (Body.link blocks originOf)) ∧
    ∀ (oracle : List Statement → TermId → Bool) (b : Block) (pending : List JumpTarget), b ∈ blocks →
      (∀ t ∈ pending, ∀ n, t ≠ .offset n) → ∃ start,
      (Body.link blocks originOf).blockStart? b.node = some start ∧
        Config.Alike (Block.watched oracle (Body.resolve (Body.link blocks originOf).blockStarts) blocks)
          (Body.watched oracle (Body.link blocks originOf).statements)
          (.running (b.node, b.statements.map Prod.snd) pending [])
          (.running start (pending.map (Body.resolve (Body.link blocks originOf).blockStarts)) []) := by
  refine ⟨⟨_, h.arranged originOf⟩, fun oracle b pending hb hpending => ?_⟩
  obtain ⟨i, hi⟩ := List.mem_iff_getElem?.mp hb
  have hresolved : List.Forall₂ (Resolved (Body.link blocks originOf).blockStarts) pending
      (pending.map (Body.resolve (Body.link blocks originOf).blockStarts)) := by
    rw [List.forall₂_map_right_iff, List.forall₂_same]
    exact fun t ht => ⟨hpending t ht, rfl⟩
  refine ⟨_, blockStart_of_nodup h.nodup originOf hi, ?_⟩
  exact Config.alike_of_simulates
    ((h.watched originOf oracle).simulates ⟨h.stands_start hi, hresolved, rfl⟩)
    (Body.prefix_watched oracle _) fun _ _ => rfl

/-- A loop through three blocks, of which the first is only a jump to the second. Node 9 has no block. -/
def circuit : List Block :=
  [⟨0, [(0, .goto (.node 1))]⟩,
   ⟨1, [(1, .pushFlow (.node 0)), (1, .gotoIfNot 5 (.node 9)), (1, .goto (.node 2))]⟩,
   ⟨2, [(2, .callFunction "turn" [] []), (2, .goto (.node 0))]⟩]

theorem circuit_linkable : Linkable circuit where
  nodup := by decide
  closed := by
    simp only [circuit, List.forall_mem_cons, List.not_mem_nil, false_imp_iff, implies_true, and_true]
    exact ⟨⟨[], _, rfl, rfl⟩, ⟨[.pushFlow (.node 0), .gotoIfNot 5 (.node 9)], _, rfl, rfl⟩,
      [.callFunction "turn" [] []], _, rfl, rfl⟩
  plain := by
    simp only [circuit, List.forall_mem_cons, List.map_cons, List.map_nil, List.not_mem_nil,
      false_imp_iff, implies_true, and_true,
      Statement.target?]
    simp

/-- The first two blocks start at one offset, and the jump to node 9 ends the thread. -/
theorem circuit_preserved : Linkable circuit ∧
    (Body.link circuit fun _ => none).statements =
      [.pushFlow (.offset 0), .gotoIfNot 5 .endOfThread, .callFunction "turn" [] [], .goto (.offset 0)] ∧
    (Body.link circuit fun _ => none).blockStarts.entries = [(0, 0), (1, 0), (2, 2)] ∧
    (∃ parts, Arranged circuit (fun _ => none) parts (Body.link circuit fun _ => none)) ∧
    ∀ oracle, ∃ start, (Body.link circuit fun _ => none).blockStart? 1 = some start ∧
      Config.Alike (Block.watched oracle
        (Body.resolve (Body.link circuit fun _ => none).blockStarts) circuit)
        (Body.watched oracle (Body.link circuit fun _ => none).statements)
        (.running (1, [.pushFlow (.node 0), .gotoIfNot 5 (.node 9), .goto (.node 2)])
          [.node 2, .node 9] [])
        (.running start [.offset 2, .endOfThread] []) := by
  have hpreserved := circuit_linkable.link_preserves_runs fun _ => none
  exact ⟨circuit_linkable, by decide, by decide, hpreserved.1, fun oracle =>
    hpreserved.2 oracle ⟨1, _⟩ [.node 2, .node 9] (List.mem_cons_of_mem _ List.mem_cons_self) (by simp)⟩

end Block

end VisualScript
