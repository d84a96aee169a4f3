import Mathlib.Data.List.Chain
import VisualScript.Proofs.Code.Linking

namespace VisualScript

def JumpTarget.renumber (f : Nat → Nat) : JumpTarget → JumpTarget
  | .offset n => .offset (f n)
  | t => t

namespace Statement

def isComment : Statement → Bool
  | .comment _ => true
  | _ => false

/-- Renumbers the jumps within a body and the entry into the event graph. -/
def renumber (own entry : Nat → Nat) : Statement → Statement
  | .callEventGraph function event offset => .callEventGraph function event (offset.map entry)
  | s => s.mapTarget (JumpTarget.renumber own)

/-- As nodes emit it: it jumps to nodes only and does not know the entry into the event graph. -/
def isUnlinked : Statement → Bool
  | .callEventGraph _ _ offset => offset.isNone
  | .goto (.offset _) | .gotoIfNot _ (.offset _) | .pushFlow (.offset _) => false
  | _ => true

theorem isComment_mapTarget (f : JumpTarget → JumpTarget) (s : Statement) :
    (s.mapTarget f).isComment = s.isComment := by
  cases s <;> rfl

end Statement

namespace Body

def offsetWithoutComments (b : Body) (n : Nat) : Nat :=
  n - (b.statements.take n).countP Statement.isComment

/-- What stands beside the statements that are no comments. -/
def beside {α : Type} (b : Body) (l : List α) : List α :=
  ((b.statements.zip l).filter fun p => !p.1.isComment).map Prod.snd

/-- Deletes the comments. The entries into the event graph are renumbered as told. -/
def withoutComments (b : Body) (entry : Nat → Nat) : Body where
  statements := (b.statements.filter fun s => !s.isComment).map
    (Statement.renumber b.offsetWithoutComments entry)
  blockStarts := b.blockStarts.mapValues b.offsetWithoutComments
  statementNodes := b.beside b.statementNodes
  origins := b.beside b.origins

theorem offsetWithoutComments_map (b : Body) {φ : Statement → Statement}
    (hcomment : ∀ s, (φ s).isComment = s.isComment) :
    ({ b with statements := b.statements.map φ } : Body).offsetWithoutComments =
      b.offsetWithoutComments := by
  funext n
  simp only [offsetWithoutComments, ← List.map_take, List.countP_map, Function.comp_def, hcomment]

theorem withoutComments_map (b : Body) {entry : Nat → Nat} {φ φ' : Statement → Statement}
    (hcomment : ∀ s, (φ s).isComment = s.isComment)
    (hrenumber : ∀ own s, (φ s).renumber own entry = φ' (s.renumber own entry)) :
    ({ b with statements := b.statements.map φ } : Body).withoutComments entry =
      { b.withoutComments entry with statements := (b.withoutComments entry).statements.map φ' } := by
  have hbeside {α : Type} (l : List α) :
      ({ b with statements := b.statements.map φ } : Body).beside l = b.beside l := by
    simp only [beside, List.zip_map_left, List.filter_map, List.map_map, Function.comp_def,
      Prod.map, hcomment, id]
  simp only [withoutComments, offsetWithoutComments_map b hcomment, hbeside, List.filter_map, List.map_map,
    Function.comp_def, hcomment, hrenumber]

theorem length_withoutComments_map (b : Body) (entry : Nat → Nat) {φ : Statement → Statement}
    (hcomment : ∀ s, (φ s).isComment = s.isComment) :
    (({ b with statements := b.statements.map φ } : Body).withoutComments entry).statements.length =
      (b.withoutComments entry).statements.length := by
  simp only [withoutComments, List.length_map, List.filter_map, Function.comp_def, hcomment]

def layOut (blocks : List Block) (originOf : NodeId → Option Origin) : Body :=
  let blockStarts := OrderedMap.ofList (Block.starts 0 blocks)
  let code := blocks.flatMap Block.statements
  { statements := code.map fun s => s.2.mapTarget (resolve blockStarts)
    blockStarts
    statementNodes := code.map Prod.fst
    origins := code.map fun s => originOf s.1 }

theorem link_eq_layOut (blocks : List Block) (originOf : NodeId → Option Origin) :
    link blocks originOf = layOut (Block.fallThrough blocks) originOf := rfl

theorem resolve_mapValues (starts : OrderedMap NodeId Nat) (f : Nat → Nat) {t : JumpTarget}
    (ht : ∀ n, t ≠ .offset n) :
    resolve (starts.mapValues f) t = (resolve starts t).renumber f := by
  cases t with
  | offset n => exact absurd rfl (ht n)
  | endOfThread => rfl
  | node id =>
      rw [resolve, resolve, OrderedMap.get?_mapValues]
      cases starts.get? id <;> rfl

theorem renumber_resolve (starts : OrderedMap NodeId Nat) (own entry : Nat → Nat) {s : Statement}
    (hs : s.isUnlinked = true) :
    (s.mapTarget (resolve starts)).renumber own entry = s.mapTarget (resolve (starts.mapValues own)) := by
  have ht {t : JumpTarget} (h : ∀ n, t ≠ .offset n) := (resolve_mapValues starts own h).symm
  cases s with
  | callEventGraph function event offset =>
      cases offset with
      | none => rfl
      | some n => cases hs
  | goto t | gotoIfNot _ t | pushFlow t =>
      have hplain (n : Nat) : t ≠ .offset n := by
        rintro rfl
        cases hs
      simp only [Statement.mapTarget, Statement.renumber, ht hplain]
  | _ => rfl

end Body

namespace Block

def withoutComments (b : Block) : Block :=
  { b with statements := b.statements.filter fun s => !s.2.isComment }

theorem flatMap_withoutComments (blocks : List Block) :
    (blocks.map withoutComments).flatMap Block.statements =
      (blocks.flatMap Block.statements).filter fun s => !s.2.isComment := by
  rw [List.flatMap_map, List.filter_flatMap]
  rfl

end Block

namespace Body

variable {blocks : List Block} {originOf : NodeId → Option Origin}

theorem length_filter_not_isComment (code : List (NodeId × Statement)) :
    (code.filter fun s => !s.2.isComment).length = code.length - code.countP fun s => s.2.isComment := by
  rw [List.length_eq_countP_add_countP (fun s => s.2.isComment) (l := code), Nat.add_sub_cancel_left,
    List.countP_eq_length_filter]
  simp

theorem offsetWithoutComments_layOut (front rest : List Block) (originOf : NodeId → Option Origin) :
    (layOut (front ++ rest) originOf).offsetWithoutComments (front.flatMap Block.statements).length =
      ((front.map Block.withoutComments).flatMap Block.statements).length := by
  rw [Block.flatMap_withoutComments, length_filter_not_isComment, offsetWithoutComments, layOut]
  simp only [List.flatMap_append, List.map_append]
  rw [List.take_left' (List.length_map _), List.countP_map]
  refine congrArg _ (List.countP_congr fun s _ => ?_)
  rw [Function.comp_apply, Statement.isComment_mapTarget]

theorem starts_withoutComments (blocks : List Block) (originOf : NodeId → Option Origin) :
    Block.starts 0 (blocks.map Block.withoutComments) =
      (Block.starts 0 blocks).map fun p => (p.1, (layOut blocks originOf).offsetWithoutComments p.2) := by
  apply List.ext_getElem?
  intro i
  rw [Block.getElem?_starts, List.getElem?_map, List.getElem?_map, Block.getElem?_starts,
    Option.map_map, Option.map_map,
    ← List.map_take]
  have hoffset := offsetWithoutComments_layOut (blocks.take i) (blocks.drop i) originOf
  rw [List.take_append_drop] at hoffset
  cases blocks[i]? with
  | none => rfl
  | some b =>
      simp only [Option.map_some, Function.comp_apply, Nat.zero_add, hoffset, Block.withoutComments]

theorem beside_layOut {α : Type} (f : NodeId × Statement → α) :
    (layOut blocks originOf).beside ((blocks.flatMap Block.statements).map f) =
      ((blocks.map Block.withoutComments).flatMap Block.statements).map f := by
  rw [Block.flatMap_withoutComments, beside, layOut]
  simp only [List.zip_map', List.filter_map, List.map_map, Function.comp_def,
    Statement.isComment_mapTarget]

theorem withoutComments_layOut (h : ∀ b ∈ blocks, ∀ s ∈ b.statements, s.2.isUnlinked = true)
    (entry : Nat → Nat) :
    (layOut blocks originOf).withoutComments entry =
      layOut (blocks.map Block.withoutComments) originOf := by
  have hstarts : (layOut blocks originOf).blockStarts.mapValues
      (layOut blocks originOf).offsetWithoutComments =
      (layOut (blocks.map Block.withoutComments) originOf).blockStarts := by
    rw [layOut, layOut, OrderedMap.mapValues_ofList, starts_withoutComments blocks originOf]
    rfl
  have hcode : ((layOut blocks originOf).withoutComments entry).statements =
      (layOut (blocks.map Block.withoutComments) originOf).statements := by
    rw [withoutComments]
    simp only [layOut, List.filter_map, List.map_map, Block.flatMap_withoutComments, Function.comp_def,
      Statement.isComment_mapTarget]
    refine List.map_congr_left fun s hs => ?_
    obtain ⟨b, hb, hs⟩ := List.mem_flatMap.mp (List.mem_filter.mp hs).1
    rw [renumber_resolve _ _ _ (h b hb s hs)]
    exact congrArg (fun starts => s.2.mapTarget (resolve starts)) hstarts
  exact congr (congr (congr (congrArg Body.mk hcode) hstarts) (beside_layOut Prod.fst))
    (beside_layOut fun s => originOf s.1)

end Body

namespace Block

def Reveals (b next : Block) : Prop :=
  b.withoutComments.lastIsGotoTo next.node = true → b.lastIsGotoTo next.node = true

theorem withoutComments_of_lastIsGotoTo {b : Block} {id : NodeId} (h : b.lastIsGotoTo id = true) :
    b.withoutComments.lastIsGotoTo id = true ∧
      (b.withoutComments.statements.dropLast) =
        (b.statements.dropLast).filter fun s => !s.2.isComment := by
  obtain ⟨k, hk⟩ := (lastIsGotoTo_iff b id).mp h
  have hcode : b.withoutComments.statements =
      (b.statements.dropLast.filter fun s => !s.2.isComment) ++ [(k, .goto (.node id))] := by
    conv => lhs; rw [withoutComments, ← List.dropLast_append_getLast? _ hk, List.filter_append]
    rfl
  rw [lastIsGotoTo_iff, hcode]
  exact ⟨⟨k, List.getLast?_concat⟩, List.dropLast_concat⟩

theorem fallThrough_cons_cons (b next : Block) (rest : List Block) :
    fallThrough (b :: next :: rest) = b.trim (some next) :: fallThrough (next :: rest) := rfl

theorem trim_some (b next : Block) : b.trim (some next) =
    if b.lastIsGotoTo next.node then { b with statements := b.statements.dropLast } else b := rfl

theorem trim_withoutComments {b next : Block} (h : b.Reveals next) :
    (b.trim (some next)).withoutComments = b.withoutComments.trim (some next.withoutComments) := by
  by_cases hb : b.lastIsGotoTo next.node = true
  · obtain ⟨hlast, hdrop⟩ := withoutComments_of_lastIsGotoTo hb
    have hlast' : b.withoutComments.lastIsGotoTo next.withoutComments.node = true := hlast
    rw [trim_some, if_pos hb, trim_some, if_pos hlast', hdrop]
    rfl
  · have hlast : ¬ b.withoutComments.lastIsGotoTo next.withoutComments.node = true :=
      fun hlast => hb (h hlast)
    rw [trim_some, if_neg hb, trim_some, if_neg hlast]

theorem fallThrough_withoutComments {blocks : List Block} (h : blocks.IsChain Reveals) :
    (fallThrough blocks).map withoutComments = fallThrough (blocks.map withoutComments) := by
  induction h with
  | nil => rfl
  | singleton => rfl
  | cons_cons hb _ ih =>
      rw [fallThrough_cons_cons, List.map_cons, ih, trim_withoutComments hb]
      rfl

theorem length_trim_lt {b next : Block} (h : ¬ b.Reveals next) :
    (b.withoutComments.trim (some next.withoutComments)).statements.length <
      (b.trim (some next)).withoutComments.statements.length := by
  obtain ⟨hlast, hb⟩ := Classical.not_imp.mp h
  have hlast' : b.withoutComments.lastIsGotoTo next.withoutComments.node = true := hlast
  obtain ⟨k, hk⟩ := (lastIsGotoTo_iff _ _).mp hlast
  have hpos : 0 < b.withoutComments.statements.length :=
    List.length_pos_of_ne_nil fun hnil => by simp [hnil] at hk
  rw [trim_some, if_pos hlast', trim_some, if_neg hb, List.length_dropLast]
  exact Nat.sub_lt hpos Nat.one_pos

theorem length_fallThrough (blocks : List Block) :
    let commented := ((fallThrough blocks).map withoutComments).flatMap Block.statements
    let plain := (fallThrough (blocks.map withoutComments)).flatMap Block.statements
    plain.length ≤ commented.length ∧ (plain.length = commented.length → blocks.IsChain Reveals) := by
  induction blocks with
  | nil => exact ⟨Nat.le_refl _, fun _ => .nil⟩
  | cons b rest ih =>
      cases rest with
      | nil => exact ⟨Nat.le_refl _, fun _ => .singleton b⟩
      | cons next rest =>
          obtain ⟨hle, heq⟩ := ih
          simp only [List.map_cons, fallThrough_cons_cons, List.flatMap_cons, List.length_append]
            at hle heq ⊢
          by_cases hb : b.Reveals next
          · rw [trim_withoutComments hb]
            exact ⟨Nat.add_le_add_left hle _, fun h => .cons_cons hb (heq (Nat.add_left_cancel h))⟩
          · have hlt := length_trim_lt hb
            refine ⟨by omega, fun h => ?_⟩
            omega

def JumpsOn (b next : Block) : Prop :=
  ∀ k, b.statements.getLast? = some (k, .goto (.node next.node)) → k = b.node

/-- The code of the node that the block is for stands behind a comment. -/
def Titled (b : Block) : Prop :=
  ∃ front text own, b.statements = front ++ (b.node, .comment text) :: own ∧ (∀ s ∈ front, s.1 ≠ b.node) ∧
    ∀ s ∈ own, s.1 = b.node ∧ s.2.isComment = false

theorem Titled.reveals_iff {b : Block} (h : b.Titled) (next : Block) :
    b.Reveals next ↔ b.withoutComments.JumpsOn next.withoutComments := by
  obtain ⟨front, text, own, hcode, hfront, hown⟩ := h
  have hkept : (own.filter fun s => !s.2.isComment) = own := List.filter_eq_self.mpr fun s hs => by
    simp [(hown s hs).2]
  have hplain : b.withoutComments.statements = (front.filter fun s => !s.2.isComment) ++ own := by
    rw [withoutComments, hcode, List.filter_append,
      List.filter_cons_of_neg (by simp [Statement.isComment]), hkept]
  rcases List.eq_nil_or_concat' own with rfl | ⟨init, last, rfl⟩
  · -- The node emits nothing but its comment, so a final jump is one of its prelude.
    have hlast : b.lastIsGotoTo next.node = false := by simp [lastIsGotoTo, hcode]
    rw [Reveals, hlast, lastIsGotoTo_iff, JumpsOn]
    constructor
    · intro h k hk
      exact absurd (h ⟨k, hk⟩) Bool.false_ne_true
    · rintro h ⟨k, hk⟩
      have hmem := List.mem_of_getLast? hk
      rw [hplain, List.append_nil] at hmem
      exact absurd (h k hk) (hfront _ (List.mem_filter.mp hmem).1)
  · have hlast : b.statements.getLast? = some last := by
      rw [hcode, ← List.cons_append, ← List.append_assoc, List.getLast?_concat]
    have hlast' : b.withoutComments.statements.getLast? = some last := by
      rw [hplain, ← List.append_assoc, List.getLast?_concat]
    refine iff_of_true (fun h => ?_) fun k hk => ?_
    · rwa [lastIsGotoTo_iff, hlast', ← hlast, ← lastIsGotoTo_iff] at h
    · cases Option.some.inj (hlast'.symm.trans hk)
      exact (hown _ (List.mem_append_right init (List.mem_singleton_self _))).1

theorem isChain_reveals_iff {blocks : List Block} (h : ∀ b ∈ blocks, b.Titled) :
    blocks.IsChain Reveals ↔ (blocks.map withoutComments).IsChain JumpsOn := by
  rw [List.isChain_map]
  exact List.IsChain.iff_of_mem_imp fun b next hb _ => (h b hb).reveals_iff next

end Block

namespace Body

variable {blocks : List Block} (h : ∀ b ∈ blocks, ∀ s ∈ b.statements, s.2.isUnlinked = true)
  (originOf : NodeId → Option Origin) (entry : Nat → Nat)

include h

theorem withoutComments_link_eq_layOut : (link blocks originOf).withoutComments entry =
    layOut ((Block.fallThrough blocks).map Block.withoutComments) originOf := by
  rw [link_eq_layOut]
  refine withoutComments_layOut (fun b hb s hs => ?_) entry
  obtain ⟨b', hb', hs'⟩ := Block.mem_fallThrough hb hs
  exact h b' hb' s hs'

theorem withoutComments_link (hchain : blocks.IsChain Block.Reveals) :
    (link blocks originOf).withoutComments entry = link (blocks.map Block.withoutComments) originOf := by
  rw [withoutComments_link_eq_layOut h, Block.fallThrough_withoutComments hchain, link_eq_layOut]

theorem isChain_of_length_link
    (hlength : ((link blocks originOf).withoutComments entry).statements.length =
      (link (blocks.map Block.withoutComments) originOf).statements.length) :
    blocks.IsChain Block.Reveals := by
  rw [withoutComments_link_eq_layOut h, link_eq_layOut] at hlength
  simp only [layOut, List.length_map] at hlength
  exact (Block.length_fallThrough blocks).2 hlength.symm

end Body

end VisualScript
