import VisualScript.Proofs.Code.Comments
import VisualScript.Proofs.Working.Jumps

namespace VisualScript

def CompileOptions.withComments (o : CompileOptions) (on : Bool) : CompileOptions :=
  { o with emitNodeComments := on }

def Env.withComments (env : Env) (on : Bool) : Env := { env with options := env.options.withComments on }

def Raw (code : List Statement) : Prop := ∀ s ∈ code, s.isComment = false ∧ s.isUnlinked = true

theorem Raw.append {a b : List Statement} (ha : Raw a) (hb : Raw b) :
    Raw (a ++ b) := List.forall_mem_append.mpr ⟨ha, hb⟩

theorem raw_nil : Raw [] := List.forall_mem_nil _

theorem raw_single {s : Statement} (h : s.isComment = false ∧ s.isUnlinked = true) :
    Raw [s] := List.forall_mem_singleton.mpr h

theorem raw_flatten {codes : List (List Statement)} (h : ∀ code ∈ codes, Raw code) :
    Raw codes.flatten := by
  intro s hs
  obtain ⟨code, hcode, hs⟩ := List.mem_flatten.mp hs
  exact h code hcode s hs

theorem Working.follow_ne_offset (w : Working) (id : NodeId) (port : String) (n : Nat) :
    w.follow id port ≠ .offset n := by
  intro h
  unfold follow at h
  split at h <;> cases h

theorem Statement.raw_jump {t : JumpTarget} (h : ∀ n, t ≠ .offset n) :
    (jump t).isComment = false ∧ (jump t).isUnlinked = true := by
  cases t with
  | node | endOfThread => exact ⟨rfl, rfl⟩
  | offset n => exact absurd rfl (h n)

namespace Handler

open Build

variable {env : Env} {id : NodeId} {n : ScriptNode}

theorem andThen_raw {code : List Statement} (h : Raw code) : Yields Raw (andThen id code) :=
  .bind (.any _) fun w _ =>
    .pure (h.append (raw_single (Statement.raw_jump (w.follow_ne_offset id "then"))))

theorem initLocal_raw (l : LocalDecl) : Yields Raw (initLocal l) := by
  refine .bind (.any _) fun w _ => ?_
  split
  · exact .bind (.any _) fun _ _ => .pure (raw_single ⟨rfl, rfl⟩)
  · exact .pure raw_nil

theorem functionEntry_raw : Yields Raw (functionEntry.emit env id n) := by
  unfold functionEntry
  dsimp only
  split
  · refine .bind (Yields.mapM initLocal_raw _) fun codes hcodes => .bind (.any _) fun w _ => ?_
    split
    · exact .pure ((raw_flatten hcodes).append (raw_single ⟨rfl, rfl⟩))
    · exact andThen_raw (raw_flatten hcodes)
  · exact .pure raw_nil

theorem functionResult_raw : Yields Raw (functionResult.emit env id n) := by
  refine .bind (Yields.mapM (Q := Raw) (fun p => .bind (.any _) fun w _ => ?_) _) fun stores hstores => ?_
  · split
    · exact .bind (.any _) fun _ _ => .pure (raw_single ⟨rfl, rfl⟩)
    · exact .pure raw_nil
  · exact .pure ((raw_flatten hstores).append (raw_single ⟨rfl, rfl⟩))

theorem callFunction_raw : Yields Raw (callFunction.emit env id n) := by
  unfold callFunction
  dsimp only
  split
  · refine .bind (.any _) fun args _ => .bind (.any _) fun w _ => ?_
    split
    · exact andThen_raw (raw_single ⟨rfl, rfl⟩)
    · exact .pure (raw_single ⟨rfl, rfl⟩)
  · exact .pure raw_nil

theorem callEventGraph_raw : Yields Raw (callEventGraph.emit env id n) := by
  unfold callEventGraph
  dsimp only
  split
  · exact andThen_raw (raw_single ⟨rfl, rfl⟩)
  · exact .pure raw_nil

theorem variableSet_raw : Yields Raw (variableSet.emit env id n) := by
  unfold variableSet
  dsimp only
  split
  · refine .bind (.any _) fun dest _ => ?_
    split
    · exact .bind (.any _) fun _ _ => andThen_raw (raw_single ⟨rfl, rfl⟩)
    · exact andThen_raw raw_nil
  · exact .pure raw_nil

theorem persistentFrameAssign_raw : Yields Raw (persistentFrameAssign.emit env id n) := by
  refine .bind (Yields.mapM (Q := fun s => s.isComment = false ∧ s.isUnlinked = true) (fun p => ?_)
    _) fun stores hstores => ?_
  · exact .bind (.any _) fun _ _ => .bind (.any _) fun _ _ => .pure ⟨rfl, rfl⟩
  · exact andThen_raw hstores

theorem branch_raw : Yields Raw (branch.emit env id n) := by
  have hcode (x : Build TermId) : Yields Raw do
      let condition ← x
      let w ← get
      return [.gotoIfNot condition (w.follow id "false"), w.followJump id "true"] := by
    refine .bind (.any _) fun c _ => .bind (.any _) fun w _ =>
      .pure (List.forall_mem_cons.mpr ⟨⟨rfl, ?_⟩, ?_⟩)
    · have hfollow := w.follow_ne_offset id "false"
      cases ht : w.follow id "false" with
      | node | endOfThread => rfl
      | offset k => exact absurd ht (hfollow k)
    · exact raw_single (Statement.raw_jump (w.follow_ne_offset id "true"))
  simp only [branch]
  split
  · exact hcode _
  · exact hcode _

theorem sequence_raw : Yields Raw (sequence.emit env id n) := by
  intro w
  rw [sequence_code]
  cases (n.portsWhere .control .output).filterMap fun p => w.graph.behind? id p.2.name with
  | nil => exact raw_single ⟨rfl, rfl⟩
  | cons first rest =>
      refine Raw.append (fun s hs => ?_) (raw_single ⟨rfl, rfl⟩)
      obtain ⟨k, _, rfl⟩ := List.mem_map.mp hs
      exact ⟨rfl, rfl⟩

theorem tunnelBoundary_raw : Yields Raw (tunnelBoundary.emit env id n) := by
  unfold tunnelBoundary
  dsimp only
  split
  · exact .bind (.any _) fun _ _ => andThen_raw (raw_single ⟨rfl, rfl⟩)
  · exact .pure raw_nil

theorem makeArray_raw : Yields Raw (makeArray.emit env id n) := by
  refine .bind (.any _) fun _ _ => .bind (.any _) fun w _ => ?_
  split
  · exact .pure (raw_single ⟨rfl, rfl⟩)
  · exact .pure raw_nil

theorem enumLiteral_raw : Yields Raw (enumLiteral.emit env id n) := by
  refine .bind (.any _) fun w _ => ?_
  split
  · exact .bind (.any _) fun _ _ => .pure (raw_single ⟨rfl, rfl⟩)
  · exact .pure raw_nil

theorem emit_raw {h : Handler} (hh : Registry.standard.handler? n = some h) :
    Yields Raw (h.emit env id n) := by
  rw [handler?_standard] at hh
  split at hh <;> cases hh
  · exact functionEntry_raw
  · exact functionResult_raw
  · exact andThen_raw raw_nil
  · exact callFunction_raw
  · exact callEventGraph_raw
  · exact .pure raw_nil
  · exact variableSet_raw
  · exact persistentFrameAssign_raw
  · exact branch_raw
  · exact sequence_raw
  · exact tunnelBoundary_raw
  · exact .pure raw_nil
  · exact makeArray_raw
  · exact enumLiteral_raw
  · exact .pure raw_nil

theorem emit_withComments {h : Handler} (hh : Registry.standard.handler? n = some h) (env : Env)
    (on : Bool) :
    h.emit (env.withComments on) = h.emit env := by
  rw [handler?_standard] at hh
  split at hh <;> cases hh <;> rfl

end Handler

namespace Registry

theorem emitNode_raw (env : Env) (id : NodeId) : Build.Yields Raw (standard.emitNode env id) := by
  refine .bind (.any _) fun w _ => ?_
  split
  · exact .pure raw_nil
  · split
    · next hh => exact Handler.emit_raw hh
    · exact .pure raw_nil

theorem emitNode_withComments (env : Env) (on : Bool) (id : NodeId) :
    standard.emitNode (env.withComments on) id = standard.emitNode env id := by
  funext w
  simp only [emitNode, Build.bind_apply, Build.get_apply]
  cases w.graph.node? id with
  | none => rfl
  | some n =>
      cases hh : standard.handler? n with
      | none => simp only [hh]
      | some h => simp only [hh, Handler.emit_withComments hh]

end Registry

namespace Build

variable {env : Env} {w : Working} {s : Schedule} {α β γ : Type}

@[simp] theorem map_apply (f : α → β) (x : Build α) (w : Working) :
    (f <$> x) w = (f (x w).1, (x w).2) := rfl

theorem mapM_map (f : β → γ) (x : α → Build β) (l : List α) :
    l.mapM (fun a => f <$> x a) = List.map f <$> l.mapM x := by
  funext w
  induction l generalizing w with
  | nil => rfl
  | cons a rest ih => simp only [mapM_cons, map_apply, ih, List.map_cons]

def emitBare (env : Env) (id : NodeId) : Build (List (NodeId × Statement)) := do
  let w ← get
  let sites := if env.options.debugInstrumentation && !w.isPure .standard id then
    [Statement.debugSite id] else []
  return (sites ++ (← Registry.standard.emitNode env id)).map fun s => (id, s)

theorem emit_withoutComments (env : Env) (id : NodeId) :
    emit .standard (env.withComments false) id = emitBare env id := by
  simp only [emit, emitBare, Registry.emitNode_withComments]
  rfl

theorem emit_withComments (env : Env) (id : NodeId) (w : Working) :
    emit .standard (env.withComments true) id w =
    (((w.graph.node? id).toList.map fun n => (id, .comment n.title)) ++ (emitBare env id w).1,
      (emitBare env id w).2) := by
  simp only [emit, emitBare, Registry.emitNode_withComments, bind_apply, get_apply, pure_apply]
  simp only [Env.withComments, CompileOptions.withComments, if_true, List.append_assoc,
    List.map_append, List.map_map]
  rfl

theorem emitBare_raw (env : Env) (id : NodeId) (w : Working) :
    ∀ t ∈ (emitBare env id w).1, t.1 = id ∧ t.2.isComment = false ∧ t.2.isUnlinked = true := by
  refine List.forall_mem_map.mpr fun c hc => ⟨rfl, ?_⟩
  rcases List.mem_append.mp hc with hc | hc
  · split at hc
    · cases List.mem_singleton.mp hc
      exact ⟨rfl, rfl⟩
    · cases hc
  · exact Registry.emitNode_raw env id w c hc

theorem emitBare_eq (env : Env) (id : NodeId) :
    emitBare env id = (List.filter fun t => !t.2.isComment) <$> emit .standard
      (env.withComments true) id := by
  funext w
  have hkept : ((emitBare env id w).1.filter fun t => !t.2.isComment) = (emitBare env id w).1 :=
    List.filter_eq_self.mpr fun t ht => by simp [(emitBare_raw env id w t ht).2.1]
  rw [map_apply, emit_withComments, List.filter_append, hkept]
  cases w.graph.node? id <;> rfl

theorem block_withoutComments (env : Env) (s : Schedule) (id : NodeId) :
    block .standard (env.withComments false) s id =
    Block.withoutComments <$> block .standard (env.withComments true) s id := by
  have hemit : emit .standard (env.withComments false) = fun id =>
      (List.filter fun t => !t.2.isComment) <$> emit .standard (env.withComments true) id :=
    funext fun id => (emit_withoutComments env id).trans (emitBare_eq env id)
  funext w
  simp only [block, hemit, mapM_map, bind_apply, pure_apply, map_apply, Block.withoutComments,
    List.filter_flatten]

theorem blocks_withoutComments (env : Env) (s : Schedule) (w : Working) :
    blocks .standard (env.withComments false) s w =
    ((blocks .standard (env.withComments true) s w).1.map Block.withoutComments,
      (blocks .standard (env.withComments true) s w).2) := by
  have hblock : block .standard (env.withComments false) s = _ := funext (block_withoutComments env s)
  rw [blocks, blocks, hblock, mapM_map, map_apply]

theorem blocks_unlinked (env : Env) (s : Schedule) (w : Working) :
    ∀ b ∈ (blocks .standard (env.withComments true) s w).1, ∀ t ∈ b.statements, t.2.isUnlinked = true := by
  have hemit (id : NodeId) : Yields (fun code => ∀ t ∈ code, t.2.isUnlinked = true)
      (emit .standard (env.withComments true) id) := by
    intro w
    rw [emit_withComments]
    refine List.forall_mem_append.mpr ⟨List.forall_mem_map.mpr fun _ _ => rfl, fun t ht => ?_⟩
    exact (emitBare_raw env id w t ht).2.2
  have hblock (id : NodeId) : Yields (fun b : Block => ∀ t ∈ b.statements, t.2.isUnlinked = true)
      (block .standard (env.withComments true) s id) := by
    refine .bind (Yields.mapM hemit _) fun codes hcodes => .pure fun t ht => ?_
    obtain ⟨code, hcode, ht⟩ := List.mem_flatten.mp ht
    exact hcodes code hcode t ht
  exact Yields.mapM hblock s.linear w

variable (hs : w.schedule .standard = .ok s)

include hs

theorem blocks_titled (env : Env) : ∀ b ∈ (blocks .standard (env.withComments true) s w).1, b.Titled := by
  intro b hb
  obtain ⟨id, hid, v, hv, rfl, _⟩ := Respects.mem_mapM (block_respects (env.withComments true) s) hb
  obtain ⟨n, hn, _⟩ := (Graph.mem_linear hs).mp hid
  rw [block_eq]
  set v' := ((s.prelude id).mapM (emit .standard (env.withComments true)) v).2
  have hgrows : w.Grows v' := IsTrans.trans _ _ _ hv (Respects.mapM (emit_respects _) _ v)
  rw [emit_withComments, hgrows.graph, hn]
  refine ⟨_, n.title, (emitBare env id v').1, rfl, ?_, ?_⟩
  · intro t ht
    obtain ⟨part, hpart, ht⟩ := List.mem_flatten.mp ht
    obtain ⟨k, hk, x, _, rfl, _⟩ := Respects.mem_mapM (emit_respects (env.withComments true)) hpart
    obtain ⟨c, _, rfl⟩ := List.mem_map.mp ht
    exact Graph.ne_of_mem_prelude hs hid hk
  · intro t ht
    obtain ⟨htag, hcomment, _⟩ := emitBare_raw env id v' t ht
    exact ⟨htag, hcomment⟩

theorem isChain_reveals_iff (env : Env) :
    (blocks .standard (env.withComments true) s w).1.IsChain Block.Reveals ↔
    (blocks .standard (env.withComments false) s w).1.IsChain Block.JumpsOn := by
  rw [Block.isChain_reveals_iff (blocks_titled hs env), blocks_withoutComments]

theorem isChain_jumpsOn_of_quiet (env : Env)
    (hquiet : ∀ id ∈ s.linear, ∀ k ∈ s.prelude id, ∀ n, w.graph.node? k = some n → n.isQuiet = true) :
    (blocks .standard env s w).1.IsChain Block.JumpsOn := by
  have hstraight : ∀ b ∈ (blocks .standard env s w).1, ∀ t ∈ b.statements, t.1 ≠ b.node →
      t.2.isStraight = true := by
    refine (forall_blocks (P := fun id k c => k ≠ id → c.isStraight = true)
      (Q := fun id k => k ≠ id → ∀ n, w.graph.node? k = some n → n.isQuiet = true)
      (fun id k c hc _ => ?_) fun id hid k hk v hv => ?_).mpr fun id hid k hk hne => ?_
    · exact straight_of_marks (List.forall_mem_singleton.mpr hc) c (List.mem_singleton_self c)
    · obtain ⟨n, hn⟩ := Graph.exists_of_mem_run hs hid hk
      simp only [hn, Option.some.injEq, forall_eq',
        ← Registry.straight_emitNode_iff env (hv.graph ▸ hn : v.graph.node? k = some n)]
      exact ⟨fun h hne c hc => h c hc hne, fun h c hc hne => h hne c hc⟩
    · rcases List.mem_append.mp hk with hk | hk
      · exact hquiet id hid k hk
      · exact absurd (List.mem_singleton.mp hk) hne
  refine (List.pairwise_of_forall_mem_list fun b hb next _ k hk => ?_).isChain
  by_contra hne
  exact Bool.false_ne_true (hstraight b hb _ (List.mem_of_getLast? hk) hne)

theorem isChain_jumpsOn_of_debug (hdebug : env.options.debugInstrumentation = true) :
    (blocks .standard (env.withComments false) s w).1.IsChain Block.JumpsOn := by
  refine (List.pairwise_of_forall_mem_list fun b hb next _ k hk => ?_).isChain
  obtain ⟨id, hid, v, hv, rfl, _⟩ := Respects.mem_mapM (block_respects (env.withComments false) s) hb
  obtain ⟨n, hn, himpure⟩ := (Graph.mem_linear hs).mp hid
  rw [block_eq] at hk
  set v' := ((s.prelude id).mapM (emit .standard (env.withComments false)) v).2
  have hgrows : w.Grows v' := IsTrans.trans _ _ _ hv (Respects.mapM (emit_respects _) _ v)
  have hown : (emit .standard (env.withComments false) id v').1 ≠ [] := by
    have hpure : v'.isPure .standard id = false := by
      rw [Working.isPure, hgrows.graph, hn, Option.any_some, himpure]
    rw [emit_withoutComments]
    simp [emitBare, hdebug, hpure]
  rw [List.getLast?_append_of_ne_nil _ hown, emit_withoutComments] at hk
  exact (emitBare_raw env id v' _ (List.mem_of_getLast? hk)).1

end Build

end VisualScript
