import VisualScript.Proofs.Code.Machine
import VisualScript.Proofs.OrderedMap

namespace VisualScript

variable {σ : Type}

namespace Block

/-- A block without its final jump if that leads to the block behind it. -/
def trim (b : Block) (next : Option Block) : Block :=
  if next.any fun b' => b.lastIsGotoTo b'.node then { b with statements := b.statements.dropLast } else b

theorem getElem?_fallThrough (blocks : List Block) (i : Nat) :
    (fallThrough blocks)[i]? = (blocks[i]?).map fun b => b.trim blocks[i + 1]? := by
  fun_induction fallThrough blocks generalizing i with
  | case1 => simp
  | case2 b => cases i <;> simp [trim]
  | case3 b next rest ih =>
      cases i with
      | zero => simp [trim]
      | succ i => simpa using ih i

theorem trim_node (b : Block) (next : Option Block) : (b.trim next).node = b.node := by
  unfold trim
  split <;> rfl

theorem mem_fallThrough {blocks : List Block} {b : Block} (hb : b ∈ fallThrough blocks)
    {t : NodeId × Statement} (ht : t ∈ b.statements) : ∃ b ∈ blocks, t ∈ b.statements := by
  fun_induction fallThrough blocks with
  | case1 => cases hb
  | case2 => exact ⟨b, hb, ht⟩
  | case3 first next rest ih =>
      rcases List.mem_cons.mp hb with rfl | hb
      · refine ⟨first, List.mem_cons_self, ?_⟩
        split at ht
        · exact List.dropLast_subset _ ht
        · exact ht
      · exact (ih hb).imp fun _ h => ⟨List.mem_cons_of_mem _ h.1, h.2⟩

def offset (blocks : List Block) (i : Nat) : Nat :=
  (((fallThrough blocks).take i).flatMap Block.statements).length

theorem offset_succ {blocks : List Block} {i : Nat} {b : Block} (h : blocks[i]? = some b) :
    offset blocks (i + 1) = offset blocks i + (b.trim blocks[i + 1]?).statements.length := by
  have hb : (fallThrough blocks)[i]? = some (b.trim blocks[i + 1]?) := by
    rw [getElem?_fallThrough, h, Option.map_some]
  rw [offset, offset, List.take_add_one, hb, Option.toList_some, List.flatMap_append, List.length_append]
  simp

theorem offset_pos {blocks : List Block} {i : Nat} {b : Block} (h : blocks[0]? = some b)
    (hb : (b.trim blocks[1]?).statements ≠ []) (hi : 0 < i) : 0 < offset blocks i := by
  have hfirst : (fallThrough blocks)[0]? = some (b.trim blocks[1]?) := by
    rw [getElem?_fallThrough, h, Option.map_some]
  obtain ⟨i, rfl⟩ := Nat.exists_eq_succ_of_ne_zero (Nat.ne_of_gt hi)
  rw [offset]
  generalize fallThrough blocks = laid at hfirst
  cases laid with
  | nil => cases hfirst
  | cons x rest =>
      cases hfirst
      rw [List.take_succ_cons, List.flatMap_cons, List.length_append]
      exact Nat.add_pos_left (List.length_pos_of_ne_nil hb) _

theorem getElem?_starts (o : Nat) (l : List Block) (i : Nat) :
    (starts o l)[i]? = (l[i]?).map fun b =>
      (b.node, o + ((l.take i).flatMap Block.statements).length) := by
  induction l generalizing o i with
  | nil => rfl
  | cons b rest ih =>
      cases i with
      | zero => simp [starts]
      | succ i =>
          rw [starts, List.getElem?_cons_succ, List.getElem?_cons_succ, ih]
          simp only [List.take_succ_cons, List.flatMap_cons, List.length_append, Nat.add_assoc]

theorem getElem?_code {blocks : List Block} {i k : Nat} {b : Block} (h : blocks[i]? = some b)
    (hk : k < (b.trim blocks[i + 1]?).statements.length) :
    ((fallThrough blocks).flatMap Block.statements)[offset blocks i + k]? =
      (b.trim blocks[i + 1]?).statements[k]? := by
  have hb : (fallThrough blocks)[i]? = some (b.trim blocks[i + 1]?) := by
    rw [getElem?_fallThrough, h, Option.map_some]
  obtain ⟨hi, hget⟩ := List.getElem?_eq_some_iff.mp hb
  have hsplit : fallThrough blocks =
      (fallThrough blocks).take i ++ b.trim blocks[i + 1]? :: (fallThrough blocks).drop (i + 1) := by
    rw [← hget, List.getElem_cons_drop, List.take_append_drop]
  have hcode : (fallThrough blocks).flatMap Block.statements =
      ((fallThrough blocks).take i).flatMap Block.statements ++
      ((b.trim blocks[i + 1]?).statements ++
        ((fallThrough blocks).drop (i + 1)).flatMap Block.statements) := by
    conv => lhs; rw [hsplit, List.flatMap_append, List.flatMap_cons]
  rw [hcode, offset, List.getElem?_append_right (Nat.le_add_right _ _), Nat.add_sub_cancel_left,
    List.getElem?_append_left hk]

/-- Blocks as they are emitted: one for a node, each ends with a transfer, and jumps name nodes. -/
structure Linkable (blocks : List Block) : Prop where
  nodup : (blocks.map Block.node).Nodup
  closed : ∀ b ∈ blocks, ∃ front s, b.statements.map Prod.snd = front ++ [s] ∧ s.isTransfer = true
  plain : ∀ b ∈ blocks, ∀ s ∈ b.statements.map Prod.snd, ∀ n, s.target? ≠ some (.offset n)

variable {blocks : List Block} {b : Block} {i : Nat} {id : NodeId}

theorem map_node_fallThrough (blocks : List Block) :
    (fallThrough blocks).map Block.node = blocks.map Block.node := by
  apply List.ext_getElem?
  intro i
  rw [List.getElem?_map, getElem?_fallThrough, Option.map_map, List.getElem?_map]
  cases blocks[i]? <;> simp [trim_node]

theorem map_fst_starts (o : Nat) (l : List Block) : (starts o l).map Prod.fst = l.map Block.node := by
  induction l generalizing o with
  | nil => rfl
  | cons b rest ih => rw [starts, List.map_cons, ih, List.map_cons]

theorem nodup_starts (h : (blocks.map Block.node).Nodup) :
    ((starts 0 (fallThrough blocks)).map Prod.fst).Nodup := by
  rw [map_fst_starts, map_node_fallThrough]
  exact h

theorem blockStart_of_nodup (h : (blocks.map Block.node).Nodup) (originOf : NodeId → Option Origin)
    (hb : blocks[i]? = some b) :
    (Body.link blocks originOf).blockStart? b.node = some (offset blocks i) := by
  refine (OrderedMap.get?_ofList _ (nodup_starts h) _ _).mpr (List.mem_iff_getElem?.mpr ⟨i, ?_⟩)
  rw [getElem?_starts, getElem?_fallThrough, hb, Option.map_some, Option.map_some, trim_node,
    Nat.zero_add, offset]

theorem no_blockStart_of_nodup (h : (blocks.map Block.node).Nodup) (originOf : NodeId → Option Origin)
    (hid : ∀ b ∈ blocks, b.node ≠ id) : (Body.link blocks originOf).blockStart? id = none := by
  refine Option.eq_none_iff_forall_ne_some.mpr fun o ho => ?_
  have hm := List.mem_map_of_mem (f := Prod.fst) ((OrderedMap.get?_ofList _ (nodup_starts h) _ _).mp ho)
  rw [map_fst_starts, map_node_fallThrough] at hm
  obtain ⟨b, hb, he⟩ := List.mem_map.mp hm
  exact hid b hb he

theorem find?_node (hnodup : (blocks.map Block.node).Nodup) (hb : b ∈ blocks) :
    find? blocks b.node = some b := by
  cases hf : Block.find? blocks b.node with
  | none =>
      have hnone := List.find?_eq_none.mp hf b hb
      simp at hnone
  | some b' =>
      have hm := List.mem_of_find?_eq_some hf
      have hn : b'.node = b.node := by simpa using List.find?_some hf
      exact congrArg some (List.inj_on_of_nodup_map hnodup hm hb hn)

theorem Linkable.idxOf_node (h : Linkable blocks) (hb : blocks[i]? = some b) :
    (blocks.map Block.node).idxOf b.node = i := by
  obtain ⟨hi, rfl⟩ := List.getElem?_eq_some_iff.mp hb
  have hidx := h.nodup.idxOf_getElem i (by rwa [List.length_map])
  rwa [List.getElem_map] at hidx

/-- Somewhere in a block, what is left of it starts at the offset. -/
def Stands (blocks : List Block) (p : NodeId × List Statement) (pc : Nat) : Prop :=
  p.2 ≠ [] ∧ ∃ i b front, blocks[i]? = some b ∧ b.node = p.1 ∧ b.statements.map Prod.snd = front ++ p.2 ∧
    pc = offset blocks i + front.length

/-- A jump between nodes and what linking makes of it. -/
def Resolved (starts : OrderedMap NodeId Nat) (t t' : JumpTarget) : Prop :=
  (∀ n, t ≠ .offset n) ∧ t' = Body.resolve starts t

theorem Linkable.stands_start (h : Linkable blocks) (hb : blocks[i]? = some b) :
    Stands blocks (b.node, b.statements.map Prod.snd) (offset blocks i) := by
  obtain ⟨front, s, hs, _⟩ := h.closed b (List.mem_of_getElem? hb)
  exact ⟨by simp [hs], i, b, [], hb, rfl, rfl, rfl⟩

theorem Linkable.enters (h : Linkable blocks) (originOf : NodeId → Option Origin) {t t' : JumpTarget}
    (ht : Resolved (Body.link blocks originOf).blockStarts t t') :
    Config.Enters (Stands blocks) (enter blocks) Body.enter t t' := by
  obtain ⟨hplain, rfl⟩ := ht
  cases t with
  | offset n => exact absurd rfl (hplain n)
  | endOfThread => exact .none
  | node id =>
      rw [Config.Enters, enter, Body.resolve]
      by_cases hid : ∃ b ∈ blocks, b.node = id
      · obtain ⟨b, hb, rfl⟩ := hid
        obtain ⟨i, hi⟩ := List.mem_iff_getElem?.mp hb
        have hstart : (Body.link blocks originOf).blockStarts.get? b.node = some (offset blocks i) :=
          blockStart_of_nodup h.nodup originOf hi
        rw [hstart, find?_node h.nodup hb]
        exact .some (h.stands_start hi)
      · have hne (b : Block) (hb : b ∈ blocks) : b.node ≠ id := fun he => hid ⟨b, hb, he⟩
        have hstart : (Body.link blocks originOf).blockStarts.get? id = none :=
          no_blockStart_of_nodup h.nodup originOf hne
        have hnone : Block.find? blocks id = none := List.find?_eq_none.mpr fun b hb => by
          simpa using hne b hb
        rw [hstart, hnone]
        exact .none

theorem lastIsGotoTo_iff (b : Block) (id : NodeId) :
    b.lastIsGotoTo id = true ↔ ∃ k, b.statements.getLast? = some (k, .goto (.node id)) := by
  unfold lastIsGotoTo
  split
  · next k n h => simp [h]
  · next h =>
      refine ⟨nofun, fun ⟨k, hk⟩ => ?_⟩
      exact absurd hk (h k id)

theorem trim_cases (b : Block) (next : Option Block) :
    b.trim next = b ∨ ∃ front b', next = some b' ∧ b.statements.map Prod.snd =
      front ++ [.goto (.node b'.node)] ∧
      (b.trim next).statements.map Prod.snd = front := by
  cases next with
  | none => exact Or.inl rfl
  | some b' =>
      by_cases hg : b.lastIsGotoTo b'.node = true
      · obtain ⟨k, hk⟩ := (lastIsGotoTo_iff b b'.node).mp hg
        refine Or.inr ⟨b.statements.dropLast.map Prod.snd, b', rfl, ?_, by simp [trim, hg]⟩
        conv => lhs; rw [← List.dropLast_append_getLast? _ hk, List.map_append]
        rfl
      · exact Or.inl (by simp [trim, hg])

/-- The place of a node among the blocks, counted from the end. -/
def rank (blocks : List Block) : Config (NodeId × List Statement) JumpTarget σ → Nat
  | .running p _ _ => blocks.length - (blocks.map Block.node).idxOf p.1
  | .done _ _ => 0

/-- What stands at the offset of a block is its next statement, or the jump there was dropped and the
next block begins. -/
theorem fetch (originOf : NodeId → Option Origin) {s : Statement} {front rest : List Statement}
    (hb : blocks[i]? = some b) (hs : b.statements.map Prod.snd = front ++ s :: rest) :
    (Body.link blocks originOf).statements[offset blocks i + front.length]? =
        some (s.mapTarget (Body.resolve (Body.link blocks originOf).blockStarts)) ∨
      ∃ b', blocks[i + 1]? = some b' ∧ s = .goto (.node b'.node) ∧
        offset blocks (i + 1) = offset blocks i + front.length := by
  have hcode (k : Nat) (hk : k < (b.trim blocks[i + 1]?).statements.length) :
      (Body.link blocks originOf).statements[offset blocks i + k]? =
        ((b.trim blocks[i + 1]?).statements.map Prod.snd)[k]?.map
          (Statement.mapTarget (Body.resolve (Body.link blocks originOf).blockStarts)) := by
    simp only [Body.link, List.getElem?_map, getElem?_code hb hk, Option.map_map]
    rfl
  rcases trim_cases b blocks[i + 1]? with htrim | ⟨front', b', hnext, hall, htrim⟩
  · left
    have hk : front.length < (b.trim blocks[i + 1]?).statements.length := by
      rw [htrim, ← List.length_map (f := Prod.snd), hs]
      simp
    rw [hcode _ hk, htrim, hs]
    simp
  · have hlen : (b.trim blocks[i + 1]?).statements.length = front'.length := by
      rw [← htrim, List.length_map]
    rw [hs] at hall
    -- The statement stands before the dropped jump or is that jump; nothing stands behind it.
    rcases Nat.lt_trichotomy front.length front'.length with hlt | heq | hgt
    · left
      rw [hcode _ (by omega), htrim]
      have hget := congrArg (fun l => l[front.length]?) hall
      simp only [List.getElem?_append_left hlt, List.getElem?_append_right (Nat.le_refl _), Nat.sub_self,
        List.getElem?_cons_zero] at hget
      rw [← hget, Option.map_some]
    · right
      obtain ⟨rfl, htail⟩ := List.append_inj hall heq
      refine ⟨b', hnext, (List.cons.inj htail).1, ?_⟩
      rw [offset_succ hb, hlen]
    · have hlens := congrArg List.length hall
      simp only [List.length_append, List.length_cons, List.length_nil] at hlens
      omega

/-- Where a statement stands, the body has what linking makes of it, or the next block begins there:
then the statement is the jump to that block, which was dropped. -/
theorem Linkable.advance (h : Linkable blocks) (originOf : NodeId → Option Origin) {s : Statement}
    {rest : List Statement} {pc : Nat} (hs : Stands blocks (id, s :: rest) pc) :
    ((Body.link blocks originOf).statements[pc]? =
        some (s.mapTarget (Body.resolve (Body.link blocks originOf).blockStarts)) ∧
      (∀ t, s.target? = some t → Resolved (Body.link blocks originOf).blockStarts t
        (Body.resolve (Body.link blocks originOf).blockStarts t)) ∧
      (s.isTransfer = false → Stands blocks (id, rest) (pc + 1))) ∨
    ∃ b : Block, s = .goto (.node b.node) ∧ enter blocks (.node b.node) =
      some (b.node, b.statements.map Prod.snd) ∧
      Stands blocks (b.node, b.statements.map Prod.snd) pc ∧
      blocks.length - (blocks.map Block.node).idxOf b.node <
        blocks.length - (blocks.map Block.node).idxOf id := by
  obtain ⟨-, i, b, front, hb, rfl, hs, rfl⟩ := hs
  have hmem := List.mem_of_getElem? hb
  rcases fetch originOf hb hs with hfetch | ⟨b', hb', rfl, hoffset⟩
  · refine Or.inl ⟨hfetch, fun t ht => ⟨fun n hn => ?_, rfl⟩, fun hgoes => ?_⟩
    · exact h.plain b hmem s (by simp [hs]) n (hn ▸ ht)
    · -- The last statement of a block is a transfer, so something is left.
      refine ⟨fun hnil => ?_, i, b, front ++ [s], hb, rfl, by simpa using hs, by simp [Nat.add_assoc]⟩
      obtain ⟨front', s', hs', htransfer⟩ := h.closed b hmem
      rw [hs, show rest = [] from hnil] at hs'
      obtain ⟨_, hlast⟩ := List.append_inj' hs' rfl
      cases hlast
      rw [htransfer] at hgoes
      cases hgoes
  · refine Or.inr ⟨b', rfl, ?_, hoffset ▸ h.stands_start hb', ?_⟩
    · rw [enter, find?_node h.nodup (List.mem_of_getElem? hb'), Option.map_some]
    · have hlt := (List.getElem?_eq_some_iff.mp hb').1
      rw [h.idxOf_node hb, h.idxOf_node hb']
      omega

/-- Linking preserves what blocks do, also if note is taken of every statement but a jump. The body is at
rest only where a jump was dropped, and then the blocks have come to a later one. -/
theorem Linkable.ranked_of (h : Linkable blocks) (originOf : NodeId → Option Origin) (m : Meaning σ)
    (note : Statement → σ → σ)
    {f : Config (NodeId × List Statement) JumpTarget σ → Config (NodeId × List Statement) JumpTarget σ}
    {g : Config Nat JumpTarget σ → Config Nat JumpTarget σ}
    (hf : ∀ id s rest pending state, f (.running (id, s :: rest) pending state) =
      s.step m (enter blocks) (id, rest) pending
        (note (s.mapTarget (Body.resolve (Body.link blocks originOf).blockStarts)) state))
    (hg : ∀ pc s pending state, (Body.link blocks originOf).statements[pc]? = some s →
      g (.running pc pending state) = s.step m Body.enter (pc + 1) pending (note s state))
    (hf' : ∀ ending state, f (.done ending state) = .done ending state)
    (hg' : ∀ ending state, g (.done ending state) = .done ending state)
    (hgoto : ∀ t state, note (.goto t) state = state) :
    Ranked f g (Config.Matches (Stands blocks) (Resolved (Body.link blocks originOf).blockStarts))
      (rank blocks) Config.IsDone where
  stays a b hab ha := by
    cases a with
    | running => cases ha
    | done =>
        cases b with
        | running => cases hab
        | done => exact hg' _ _
  step a b hab := by
    match a, b with
    | .done _ _, .done _ _ => exact ⟨0, (hf' _ _).symm ▸ hab, Or.inl trivial⟩
    | .running (id, []) _ _, .running _ _ _ => exact absurd rfl hab.1.1
    | .running (id, s :: rest) pending state, .running pc pending' state' =>
        obtain ⟨hstands, hpending, rfl⟩ := hab
        rcases h.advance originOf hstands with ⟨hfetch, hplain, hnext⟩ | ⟨b', rfl, henter, hstart, hrank⟩
        · refine ⟨1, ?_, Or.inr (Or.inl Nat.one_pos)⟩
          rw [Function.iterate_one, hf, hg pc _ _ _ hfetch]
          exact Statement.step_matches (fun t t' => h.enters originOf) m hplain hnext hpending _
        · have hnext : f (.running (id, .goto (.node b'.node) :: rest) pending state') =
              .running (b'.node, b'.statements.map Prod.snd) pending state' := by
            rw [hf, Statement.mapTarget, hgoto]
            simp only [Statement.step, Config.resume, henter]
          rw [hnext]
          -- The body waits at the same offset while the blocks enter the next one, which has a lower rank.
          exact ⟨0, ⟨hstart, hpending, rfl⟩, Or.inr (Or.inr hrank)⟩

theorem Linkable.ranked (h : Linkable blocks) (originOf : NodeId → Option Origin) (m : Meaning σ) :
    Ranked (step m blocks) (Body.step m (Body.link blocks originOf).statements)
      (Config.Matches (Stands blocks) (Resolved (Body.link blocks originOf).blockStarts))
        (rank blocks) Config.IsDone := by
  refine h.ranked_of originOf m (fun _ state => state) (fun _ _ _ _ _ => rfl) (fun _ _ _ _ hs => ?_)
    (fun _ _ => rfl)
    (fun _ _ => rfl) fun _ _ => rfl
  rw [Body.step, hs]

end Block

end VisualScript
