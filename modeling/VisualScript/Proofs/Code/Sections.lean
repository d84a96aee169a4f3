import VisualScript.Proofs.Code.Flow

namespace VisualScript

namespace Statement

def isAssign : Statement → Bool
  | .assign _ _ => true
  | _ => false

/-- Replaces statements, though no assignment and no return. -/
structure KeepsReturns (φ : Statement → Statement) : Prop where
  assign : ∀ s dest src, φ s = .assign dest src ↔ s = .assign dest src
  ret : ∀ s, φ s = .ret ↔ s = .ret

theorem mapTarget_keepsReturns (f : JumpTarget → JumpTarget) : KeepsReturns (mapTarget f) := by
  constructor <;> intro s <;> cases s <;> simp [mapTarget]

theorem mem_map_assign {φ : Statement → Statement} (hφ : KeepsReturns φ) {id : NodeId}
    {dest src : TermId} {code : List (NodeId × Statement)} :
    (id, .assign dest src) ∈ code.map (fun s => (s.1, φ s.2)) ↔ (id, .assign dest src) ∈ code := by
  constructor
  · intro h
    obtain ⟨⟨k, s⟩, hs, he⟩ := List.mem_map.mp h
    obtain ⟨rfl, hs'⟩ := Prod.mk.inj he
    exact (hφ.assign s dest src).mp hs' ▸ hs
  · exact fun h => List.mem_map.mpr ⟨_, h, Prod.ext rfl ((hφ.assign _ dest src).mpr rfl)⟩

end Statement

namespace Body

variable {α : Type}

def cut (code : List α) : List (NodeId × Nat) → List (NodeId × List α)
  | [] => []
  | [(id, start)] => [(id, code.drop start)]
  | (id, start) :: (id', next) :: rest => (id, (code.drop start).take (next - start)) ::
      cut code ((id', next) :: rest)

def lines (b : Body) : List (NodeId × Statement) := b.statementNodes.zip b.statements

/-- The block of a node: the statements from its start to the next one. -/
def blockOf (b : Body) (id : NodeId) : List (NodeId × Statement) :=
  (((cut b.lines b.blockStarts.entries).find? fun s => s.1 = id).map Prod.snd).getD []

theorem cut_starts {f : Block → List α} (hf : ∀ b, (f b).length = b.statements.length)
    (front : List α) (laid : List Block) :
    cut (front ++ laid.flatMap f) (Block.starts front.length laid) = laid.map fun b => (b.node, f b) := by
  induction laid generalizing front with
  | nil => rfl
  | cons b rest ih =>
      have hrest := ih (front ++ f b)
      rw [List.length_append, hf, List.append_assoc] at hrest
      rw [Block.starts, List.flatMap_cons, List.map_cons, ← hrest]
      cases rest with
      | nil => simp [Block.starts, cut]
      | cons b' rest => simp [Block.starts, cut, ← hf b]

end Body

namespace Block

variable {blocks : List Block} {i : Nat} {b : Block}

theorem lines_link (blocks : List Block) (originOf : NodeId → Option Origin) :
    (Body.link blocks originOf).lines = (fallThrough blocks).flatMap fun b => b.statements.map fun s =>
      (s.1, s.2.mapTarget (Body.resolve (Body.link blocks originOf).blockStarts)) := by
  rw [Body.lines, Body.link, List.zip_map', List.map_flatMap]

theorem assign_mem_fallThrough {id : NodeId} {dest src : TermId} (blocks : List Block) :
    (∃ b ∈ fallThrough blocks, (id, .assign dest src) ∈ b.statements) ↔
      ∃ b ∈ blocks, (id, .assign dest src) ∈ b.statements := by
  fun_induction fallThrough blocks with
  | case1 | case2 => rfl
  | case3 b next rest ih =>
      rw [List.exists_mem_cons_iff, List.exists_mem_cons_iff (a := b), ih]
      refine or_congr_left ?_
      split
      · next hlast =>
          obtain ⟨k, hk⟩ := (lastIsGotoTo_iff b next.node).mp hlast
          conv => rhs; rw [← List.dropLast_append_getLast? _ hk]
          simp
      · rfl

theorem assign_mem_lines_link {id : NodeId} {dest src : TermId} (originOf : NodeId → Option Origin) :
    (id, .assign dest src) ∈ (Body.link blocks originOf).lines ↔
      ∃ b ∈ blocks, (id, .assign dest src) ∈ b.statements := by
  rw [lines_link, List.mem_flatMap, ← assign_mem_fallThrough]
  simp only [Statement.mem_map_assign (Statement.mapTarget_keepsReturns _)]

theorem blockOf_link (hnodup : (blocks.map Block.node).Nodup) (originOf : NodeId → Option Origin)
    (hb : blocks[i]? = some b) :
    (Body.link blocks originOf).blockOf b.node = (b.trim blocks[i + 1]?).statements.map fun s =>
      (s.1, s.2.mapTarget (Body.resolve (Body.link blocks originOf).blockStarts)) := by
  have hnodup' : ((fallThrough blocks).map Block.node).Nodup := map_node_fallThrough blocks ▸ hnodup
  have hlaid : b.trim blocks[i + 1]? ∈ fallThrough blocks := by
    refine List.mem_of_getElem? (?_ : (fallThrough blocks)[i]? = _)
    rw [getElem?_fallThrough, hb, Option.map_some]
  have hstarts : (Body.link blocks originOf).blockStarts.entries = starts 0 (fallThrough blocks) :=
    OrderedMap.entries_ofList (by rwa [map_fst_starts])
  have hcut := Body.cut_starts (f := fun b => b.statements.map fun s =>
    (s.1, s.2.mapTarget (Body.resolve (Body.link blocks originOf).blockStarts)))
      (fun _ => List.length_map _) [] (fallThrough blocks)
  have hfind := find?_node hnodup' hlaid
  rw [find?, trim_node] at hfind
  rw [Body.blockOf, lines_link, hstarts]
  rw [List.nil_append, List.length_nil] at hcut
  rw [hcut, List.find?_map]
  simp only [Function.comp_def, hfind, Option.map_some, Option.getD_some]

end Block

namespace Body

theorem cut_map {α β : Type} (f : α → β) (code : List α) (starts : List (NodeId × Nat)) :
    cut (code.map f) starts = (cut code starts).map fun s => (s.1, s.2.map f) := by
  fun_induction cut code starts with
  | case1 => rfl
  | case2 id start => simp [cut, List.map_drop]
  | case3 id start id' next rest ih => simp [cut, ih, List.map_drop, List.map_take]

theorem lines_mapStatements (φ : Statement → Statement) (b : Body) :
    lines { b with statements := b.statements.map φ } = b.lines.map fun s => (s.1, φ s.2) :=
  List.zip_map_right

theorem blockOf_mapStatements (φ : Statement → Statement) (b : Body) (id : NodeId) :
    blockOf { b with statements := b.statements.map φ } id = (b.blockOf id).map fun s => (s.1, φ s.2) := by
  simp only [blockOf, lines_mapStatements, cut_map, List.find?_map, Function.comp_def, Option.map_map]
  cases (cut b.lines b.blockStarts.entries).find? fun s => s.1 = id <;> rfl

end Body

end VisualScript
