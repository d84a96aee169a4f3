import VisualScript.Proofs.Expansion.Edits

namespace VisualScript.Expansion

variable {site : NodeId} {env : Env} {macros : MacroLibrary}

/-- An instance whose macro is missing is dropped, and an id that names no instance is passed over. -/
theorem expandInstance_cases (x : Expansion) (id : NodeId) (h : x.halted = false) :
    (expandInstance env macros x id = x ∧ ∀ n, x.work.graph.node? id = some n →
      n.kind.isInstance = false) ∨
      (∃ n issue, x.work.graph.node? id = some n ∧ n.kind.isInstance = true ∧
        expandInstance env macros x id = x.onWork fun w => (w.report issue (some id)).removeNode id) ∨
      ∃ n body resolved, x.work.graph.node? id = some n ∧ body? macros n.kind = some (body, resolved) ∧
        expandInstance env macros x id = inline env x id n body resolved := by
  cases hn : x.work.graph.node? id with
  | none => exact Or.inl ⟨by simp [expandInstance, h, hn], fun n hc => by cases hc⟩
  | some n =>
      cases hb : body? macros n.kind with
      | some b => exact Or.inr (Or.inr ⟨n, b.1, b.2, rfl, hb, by simp [expandInstance, h, hn, hb]⟩)
      | none =>
          cases hk : n.kind with
          | macroInstance name resolved =>
              rw [hk] at hb
              exact Or.inr (Or.inl ⟨n, .missingMacro n.title name, rfl,
                by rw [hk]; rfl, by simp [expandInstance, h, hn, hb, hk]⟩)
          | composite body => simp [hk, body?] at hb
          | _ =>
              rw [hk] at hb
              refine Or.inl ⟨by simp [expandInstance, h, hn, hb, hk], ?_⟩
              intro m hm
              cases hm
              simp [hk, NodeKind.isInstance]

theorem expandInstance_halted (x : Expansion) (id : NodeId) (h : x.halted = true) :
    expandInstance env macros x id = x := by
  simp [expandInstance, h]

theorem foldl_expandInstance_halted (ids : List NodeId) (x : Expansion) (h : x.halted = true) :
    ids.foldl (expandInstance env macros) x = x := by
  induction ids with
  | nil => rfl
  | cons id rest ih => rw [List.foldl_cons, expandInstance_halted x id h, ih]

theorem collapseTunnel_halted (x : Expansion) (id : NodeId) :
    (collapseTunnel env x id).halted = x.halted := by
  cases hn : x.work.graph.node? id with
  | none => simp [collapseTunnel, hn]
  | some n =>
      obtain ⟨w, _, _, hh⟩ := collapseTunnel_cases env hn
      exact hh

def Deep (d : Nat) (w : Working) : Prop :=
  ∀ k n, w.graph.node? k = some n → n.kind.isInstance = true → d ≤ w.provenance.depth k

/-- Every instance that does not wait for its turn came in during this round: it nests deeper than
`d`, which then is below the limit. -/
def Nested (limit d : Nat) (waiting : List NodeId) (w : Working) : Prop :=
  ∀ k n, w.graph.node? k = some n → n.kind.isInstance = true →
    (d < limit ∧ d < w.provenance.depth k) ∨ (k ∈ waiting ∧ d ≤ w.provenance.depth k)

variable {limit d : Nat} {waiting : List NodeId} {w w' : Working}

theorem Deep.nested (h : Deep d w) : Nested limit d (w.graph.findNodes fun n => n.kind.isInstance) w :=
  fun k n hn hi => Or.inr ⟨Graph.mem_findNodes.mpr ⟨n, hn, hi⟩, h k n hn hi⟩

theorem Nested.deep (h : Nested limit d [] w) : Deep (d + 1) w := by
  intro k n hn hi
  rcases h k n hn hi with ⟨_, hd⟩ | ⟨hk, _⟩
  · exact hd
  · cases hk

theorem Nested.none_left (h : Nested limit d [] w) (hd : limit ≤ d) {k : NodeId} {n : ScriptNode}
    (hn : w.graph.node? k = some n) : n.kind.isInstance = false := by
  cases hi : n.kind.isInstance with
  | false => rfl
  | true =>
      rcases h k n hn hi with ⟨hl, _⟩ | ⟨hk, _⟩
      · omega
      · cases hk

theorem Edit.nested (h : Edit site w w') (hl : d < limit) (hs : d ≤ w.provenance.depth site)
    (hw : Nested limit d waiting w) : d ≤ w'.provenance.depth site ∧ Nested limit d waiting w' := by
  constructor
  · rcases h.depth_cases site with he | he <;> omega
  · intro k m hk hi
    -- What is new is no instance; a node whose origin is recorded anew nests below the site.
    rcases h.node_cases hk with ⟨n, hn, ho⟩ | ⟨hm, _⟩
    · rcases h.depth_cases k with he | he
      · rw [he]
        exact hw k n hn (by rw [Node.kind_eq_of_outline ho]; exact hi)
      · exact Or.inl ⟨hl, by omega⟩
    · rw [hm] at hi
      cases hi

theorem Edits.nested (h : Edits site w w') (hl : d < limit) (hs : d ≤ w.provenance.depth site)
    (hw : Nested limit d waiting w) : Nested limit d waiting w' := by
  have hboth : d ≤ w'.provenance.depth site ∧ Nested limit d waiting w' := by
    induction h with
    | refl => exact ⟨hs, hw⟩
    | tail _ h ih => exact h.nested hl ih.1 ih.2
  exact hboth.2

theorem Nested.removeNodes {id : NodeId} (h : Nested limit d (id :: waiting) w) (ids : List NodeId) :
    Nested limit d waiting (removeNodes w (ids ++ [id])) := by
  intro k n hn hi
  rw [node?_removeNodes] at hn
  split at hn
  · cases hn
  · next hk =>
      rw [depth_removeNodes w _ hk]
      rcases h k n hn hi with hd | ⟨hw, hd⟩
      · exact Or.inl hd
      · rcases List.mem_cons.mp hw with rfl | hw
        · simp at hk
        · exact Or.inr ⟨hw, hd⟩

theorem Nested.resolvedIn {id : NodeId} (h : Nested limit d waiting w) (hl : d < limit)
    (hd : d ≤ w.provenance.depth id) (body : ScriptGraph) (resolved : Option PinType) :
    d ≤ (resolvedIn w id body resolved).provenance.depth id ∧
      Nested limit d waiting (resolvedIn w id body resolved) := by
  have hdepth (k : NodeId) : (Expansion.resolvedIn w id body resolved).provenance.depth k = _ :=
    Provenance.depth_recordExpansion w.provenance (w.graph.merge body).1 body.name id k
  constructor
  · rw [hdepth]
    split <;> omega
  · intro k m hk hi
    rw [hdepth]
    have ho : ((w.graph.merge body).2.node? k).map Node.outline = some m.outline := by
      rw [← outline_resolvePorts resolved (w.graph.merge body).1.copies]
      exact congrArg (Option.map Node.outline) hk
    obtain ⟨n, hn, ho⟩ := Option.map_eq_some_iff.mp ho
    have hi : n.kind.isInstance = true := by rw [Node.kind_eq_of_outline ho]; exact hi
    split
    · exact Or.inl ⟨hl, by omega⟩
    · next hc =>
        rcases Graph.merge_cases w.graph body k n hn with hn | ⟨s, _, _, hs, _⟩
        · exact h k n hn hi
        · exact absurd (List.mem_map.mpr ⟨(s, k), hs, rfl⟩) hc

theorem expandInstance_nested (x : Expansion) (id : NodeId)
    (h : Nested env.options.maxExpansionDepth d (id :: waiting) x.work)
    (hh : (expandInstance env macros x id).halted = false) :
    Nested env.options.maxExpansionDepth d waiting (expandInstance env macros x id).work := by
  cases hx : x.halted with
  | true =>
      rw [expandInstance_halted x id hx, hx] at hh
      cases hh
  | false =>
      rcases expandInstance_cases x id hx with
        ⟨he, hn⟩ | ⟨_, issue, _, _, he⟩ | ⟨n, body, resolved, hn, hb, he⟩
      · rw [he]
        intro k n hk hi
        rcases h k n hk hi with hd | ⟨hw, hd⟩
        · exact Or.inl hd
        · rcases List.mem_cons.mp hw with rfl | hw
          · rw [hn n hk] at hi
            cases hi
          · exact Or.inr ⟨hw, hd⟩
      · rw [he]
        exact h.removeNodes []
      · rw [he] at hh ⊢
        rcases inline_cases env x id n body resolved with
          ⟨_, _, hi⟩ | ⟨_, _, hi⟩ | ⟨hl, w, ids, _, hw, hi, _⟩
        · rw [hi] at hh
          cases hh
        · rw [hi] at hh
          cases hh
        · -- The instance nests at least `d` levels deep, whether it waited or not.
          have hinst : n.kind.isInstance = true := by
            cases hk : n.kind <;> simp_all [body?, NodeKind.isInstance]
          have hd : d ≤ x.work.provenance.depth id := by
            rcases h id n hn hinst with hd | hd <;> omega
          obtain ⟨hs, hr⟩ := h.resolvedIn (by omega) hd body resolved
          rw [hi]
          exact (hw.nested (by omega) hs hr).removeNodes ids

theorem foldl_expandInstance_nested (ids : List NodeId) (x : Expansion)
    (h : Nested env.options.maxExpansionDepth d ids x.work)
    (hh : (ids.foldl (expandInstance env macros) x).halted = false) :
    Nested env.options.maxExpansionDepth d [] (ids.foldl (expandInstance env macros) x).work := by
  induction ids generalizing x with
  | nil => exact h
  | cons id rest ih =>
      apply ih _ (expandInstance_nested x id h ?_) hh
      cases hx : (expandInstance env macros x id).halted with
      | false => rfl
      | true =>
          rw [List.foldl_cons, foldl_expandInstance_halted rest _ hx, hx] at hh
          cases hh

def Hollow (waiting : List NodeId) (w : Working) : Prop :=
  ∀ k n, w.graph.node? k = some n → n.kind.isInstance = false ∧ (n.kind.isTunnel = true → k ∈ waiting)

theorem Edit.hollow (h : Edit site w w') (hw : Hollow waiting w) : Hollow waiting w' := by
  intro k m hk
  rcases h.node_cases hk with ⟨n, hn, ho⟩ | ⟨hi, ht⟩
  · rw [← Node.kind_eq_of_outline ho]
    exact hw k n hn
  · exact ⟨hi, fun h => by rw [ht] at h; cases h⟩

theorem collapseTunnel_hollow (x : Expansion) (id : NodeId) (h : Hollow (id :: waiting) x.work) :
    Hollow waiting (collapseTunnel env x id).work := by
  cases hn : x.work.graph.node? id with
  | none =>
      have he : collapseTunnel env x id = x := by simp [collapseTunnel, hn]
      rw [he]
      intro k n hk
      refine ⟨(h k n hk).1, fun ht => ?_⟩
      rcases List.mem_cons.mp ((h k n hk).2 ht) with rfl | hw
      · rw [hn] at hk
        cases hk
      · exact hw
  | some n =>
      obtain ⟨w, hw, he, _⟩ := collapseTunnel_cases env hn
      have hh : Hollow (id :: waiting) w := by
        clear he
        induction hw with
        | refl => exact h
        | tail _ h ih => exact h.hollow ih
      rw [he]
      intro k m hk
      have hr : (w.removeNode id).graph.node? k = if k = id then none else w.graph.node? k :=
        Graph.node?_removeNode w.graph id k
      rw [hr] at hk
      split at hk
      · cases hk
      · next hne =>
          refine ⟨(hh k m hk).1, fun ht => ?_⟩
          exact (List.mem_cons.mp ((hh k m hk).2 ht)).resolve_left hne

theorem foldl_collapseTunnel_hollow (ids : List NodeId) (x : Expansion) (h : Hollow ids x.work) :
    Hollow [] (ids.foldl (collapseTunnel env) x).work := by
  induction ids generalizing x with
  | nil => exact h
  | cons id rest ih => exact ih _ (collapseTunnel_hollow x id h)

def Logged (w : Working) (x : Expansion) : Prop :=
  w.diagnostics <+: x.work.diagnostics ∧ (x.halted = true → ∃ log name detail location,
    x.work.diagnostics = w.diagnostics ++ log ++ [⟨.recursiveExpansion name detail, location⟩])

theorem Logged.ofPrefix {x : Expansion} (h : w.diagnostics <+: x.work.diagnostics)
    (hx : x.halted = false) :
    Logged w x :=
  ⟨h, fun hc => by rw [hx] at hc; cases hc⟩

theorem Logged.halt {x : Expansion} (h : w.diagnostics <+: x.work.diagnostics)
    (body detail : String) (id : NodeId) :
    Logged w (x.halt body detail id) := by
  obtain ⟨log, hl⟩ := h
  have hd : (x.halt body detail id).work.diagnostics =
      w.diagnostics ++ log ++ [⟨.recursiveExpansion body detail, x.work.locate (some id) none⟩] := by
    rw [hl]
    rfl
  refine ⟨?_, fun _ => ⟨log, _, _, _, hd⟩⟩
  rw [hd, List.append_assoc]
  exact List.prefix_append _ _

theorem expandInstance_logged (x : Expansion) (id : NodeId) (h : Logged w x) :
    Logged w (expandInstance env macros x id) := by
  cases hx : x.halted with
  | true =>
      rw [expandInstance_halted x id hx]
      exact h
  | false =>
      rcases expandInstance_cases x id hx with
        ⟨he, _⟩ | ⟨_, issue, _, _, he⟩ | ⟨n, body, resolved, _, _, he⟩
      · rw [he]
        exact h
      · rw [he]
        exact .ofPrefix (h.1.trans (List.prefix_append _ _)) hx
      · rw [he]
        rcases inline_cases env x id n body resolved with
          ⟨_, _, hi⟩ | ⟨_, _, hi⟩ | ⟨_, w', ids, _, hw, hi, hh⟩
        · rw [hi]
          exact .halt h.1 ..
        · rw [hi]
          exact .halt (x := { x with work := mergedIn x.work id body, stats := _ }) h.1 ..
        · apply Logged.ofPrefix
          · rw [hi, removeNodes_diagnostics]
            exact h.1.trans hw.diagnostics_prefix
          · exact hh.trans hx

theorem collapseTunnel_logged (x : Expansion) (id : NodeId) (hx : x.halted = false) (h : Logged w x) :
    Logged w (collapseTunnel env x id) := by
  cases hn : x.work.graph.node? id with
  | none =>
      have he : collapseTunnel env x id = x := by simp [collapseTunnel, hn]
      rw [he]
      exact h
  | some n =>
      obtain ⟨w', hw, he, hh⟩ := collapseTunnel_cases env hn
      refine .ofPrefix ?_ (hh.trans hx)
      rw [he]
      exact h.1.trans hw.diagnostics_prefix

inductive Task where
  | expand (id : NodeId)
  | collapse (id : NodeId)

def Task.perform (env : Env) (macros : MacroLibrary) (x : Expansion) : Task → Expansion
  | .expand id => expandInstance env macros x id
  | .collapse id => collapseTunnel env x id

/-- What there is to do in a round: the instances, or the tunnels if there is no instance. -/
def agenda (g : ScriptGraph) : List Task :=
  let instances := g.findNodes fun n => n.kind.isInstance
  if instances.isEmpty then (g.findNodes fun n => n.kind.isTunnel).map .collapse else instances.map .expand

def fullRound (env : Env) (macros : MacroLibrary) (x : Expansion) : Expansion :=
  round env macros x (x.work.graph.findNodes fun n => n.kind.isInstance)
    (x.work.graph.findNodes fun n => n.kind.isTunnel)

def Expanded (g : ScriptGraph) : Prop :=
  ∀ k n, g.node? k = some n → n.kind.isInstance = false ∧ n.kind.isTunnel = false

theorem Hollow.expanded (h : Hollow [] w) : Expanded w.graph := by
  intro k n hk
  refine ⟨(h k n hk).1, Bool.eq_false_iff.mpr fun ht => ?_⟩
  cases (h k n hk).2 ht

theorem agenda_eq_nil {g : ScriptGraph} : agenda g = [] ↔
    g.findNodes (fun n => n.kind.isInstance) = [] ∧ g.findNodes (fun n => n.kind.isTunnel) = [] := by
  rw [agenda]
  split <;> simp_all

theorem mem_agenda {g : ScriptGraph} {task : Task} (h : task ∈ agenda g) : ∃ id n, g.node? id = some n ∧
    (task = .expand id ∧ n.kind.isInstance = true ∨ task = .collapse id ∧ n.kind.isTunnel = true) := by
  rw [agenda] at h
  split at h <;> obtain ⟨id, hid, rfl⟩ := List.mem_map.mp h <;> obtain ⟨n, hn, hkind⟩ :=
    Graph.mem_findNodes.mp hid
  · exact ⟨id, n, hn, Or.inr ⟨rfl, hkind⟩⟩
  · exact ⟨id, n, hn, Or.inl ⟨rfl, hkind⟩⟩

theorem findNodes_eq_nil {g : ScriptGraph} {p : ScriptNode → Bool} :
    g.findNodes p = [] ↔ ∀ k n, g.node? k = some n → p n = false := by
  rw [List.eq_nil_iff_forall_not_mem]
  refine ⟨fun h k n hk => Bool.eq_false_iff.mpr fun hp => h k (Graph.mem_findNodes.mpr ⟨n, hk, hp⟩), ?_⟩
  intro h k hk
  obtain ⟨n, hk, hp⟩ := Graph.mem_findNodes.mp hk
  rw [h k n hk] at hp
  cases hp

theorem expanded_iff {g : ScriptGraph} : Expanded g ↔ agenda g = [] := by
  rw [agenda_eq_nil, findNodes_eq_nil, findNodes_eq_nil]
  exact ⟨fun h => ⟨fun k n hk => (h k n hk).1, fun k n hk => (h k n hk).2⟩,
    fun h k n hk => ⟨h.1 k n hk, h.2 k n hk⟩⟩

theorem rounds_succ (fuel : Nat) (x : Expansion) : rounds env macros (fuel + 1) x =
    if x.halted = true ∨ agenda x.work.graph = [] then x else
      rounds env macros fuel (fullRound env macros x) := by
  rw [rounds, fullRound]
  simp only [agenda_eq_nil, Bool.or_eq_true, Bool.and_eq_true, List.isEmpty_iff]

theorem rounds_halted (fuel : Nat) {x : Expansion} (h : x.halted = true) :
    rounds env macros fuel x = x := by
  cases fuel with
  | zero => rfl
  | succ fuel => rw [rounds_succ, if_pos (Or.inl h)]

/-- An expansion with what is left to do in its present round. -/
structure Loop where
  state : Expansion
  tasks : List Task

namespace Loop

def countRound (x : Expansion) : Expansion :=
  { x with stats := { x.stats with rounds := x.stats.rounds + 1 } }

/-- The loop goes on as long as no ceiling was hit and there is something to do. -/
inductive Step (env : Env) (macros : MacroLibrary) : Loop → Loop → Prop
  | perform (x : Expansion) (task : Task) (rest : List Task) (h : x.halted = false) :
      Step env macros ⟨x, task :: rest⟩ ⟨task.perform env macros x, rest⟩
  | round (x : Expansion) (h : x.halted = false) (ha : agenda x.work.graph ≠ []) :
      Step env macros ⟨x, []⟩ ⟨countRound x, agenda x.work.graph⟩

inductive Runs (env : Env) (macros : MacroLibrary) : Nat → Loop → Loop → Prop
  | done (a : Loop) : Runs env macros 0 a a
  | step {n : Nat} {a b c : Loop} (h : Step env macros a b) (hr : Runs env macros n b c) :
      Runs env macros (n + 1) a c

def start (w : Working) : Loop := ⟨{ work := w }, []⟩

theorem step_unique {a b c : Loop} (hb : Step env macros a b) (hc : Step env macros a c) : b = c := by
  cases hb <;> cases hc <;> rfl

theorem Runs.trans {n m : Nat} {a b c : Loop} (h : Runs env macros n a b) (h' : Runs env macros m b c) :
    Runs env macros (n + m) a c := by
  induction h with
  | done => rwa [Nat.zero_add]
  | step hs _ ih =>
      rw [Nat.add_right_comm]
      exact .step hs (ih h')

theorem Runs.le_of_stuck {n k : Nat} {a b c : Loop} (h : Runs env macros n a b)
    (hb : ∀ d, ¬ Step env macros b d) (h' : Runs env macros k a c) : k ≤ n := by
  induction h generalizing k with
  | done =>
      cases h' with
      | done => exact Nat.le_refl 0
      | step hs => exact absurd hs (hb _)
  | step hs _ ih =>
      cases h' with
      | done => exact Nat.zero_le _
      | step hs' hr' =>
          cases step_unique hs hs'
          exact Nat.succ_le_succ (ih hb hr')

theorem Step.logged {a b : Loop} (h : Step env macros a b) (ha : Logged w a.state) : Logged w b.state := by
  cases h with
  | round => exact ha
  | perform x task rest hx =>
      cases task with
      | expand id => exact expandInstance_logged x id ha
      | collapse id => exact collapseTunnel_logged x id hx ha

theorem Runs.logged {n : Nat} {a b : Loop} (h : Runs env macros n a b) (ha : Logged w a.state) :
    Logged w b.state := by
  induction h with
  | done => exact ha
  | step hs _ ih => exact ih (hs.logged ha)

theorem Runs.reported {n : Nat} {last : Loop} (h : Runs env macros n (start w) last)
    (hh : last.state.halted = true) :
    ∃ log name detail location, last.state.work.diagnostics =
      w.diagnostics ++ log ++ [⟨.recursiveExpansion name detail, location⟩] :=
  (h.logged (Logged.ofPrefix (List.prefix_refl _) rfl)).2 hh

theorem not_step_of_halted {a : Loop} (h : a.state.halted = true) (b : Loop) : ¬ Step env macros a b := by
  intro hs
  cases hs with
  | perform _ _ _ hx | round _ hx => rw [hx] at h; cases h

theorem not_step_of_expanded {x : Expansion} (h : Expanded x.work.graph) (b : Loop) :
    ¬ Step env macros ⟨x, []⟩ b := by
  intro hs
  cases hs with
  | round _ _ ha => exact ha (expanded_iff.mp h)

variable (env macros) in
theorem expand_runs (ids : List NodeId) (x : Expansion) :
    ∃ n rest, Runs env macros n ⟨x, ids.map .expand⟩ ⟨ids.foldl (expandInstance env macros) x, rest⟩ ∧
      ((ids.foldl (expandInstance env macros) x).halted = false → rest = []) := by
  induction ids generalizing x with
  | nil => exact ⟨0, [], .done _, fun _ => rfl⟩
  | cons id rest ih =>
      cases hx : x.halted with
      | true =>
          rw [foldl_expandInstance_halted _ x hx, hx]
          exact ⟨0, _, .done _, nofun⟩
      | false =>
          obtain ⟨n, left, hr, hl⟩ := ih (expandInstance env macros x id)
          exact ⟨n + 1, left, .step (.perform x (.expand id) _ hx) hr, hl⟩

theorem collapse_runs (ids : List NodeId) (x : Expansion) (hx : x.halted = false) :
    Runs env macros ids.length ⟨x, ids.map .collapse⟩ ⟨ids.foldl (collapseTunnel env) x, []⟩ := by
  induction ids generalizing x with
  | nil => exact .done _
  | cons id rest ih =>
      exact .step (.perform x (.collapse id) _ hx) (ih _ ((collapseTunnel_halted x id).trans hx))

variable (env macros) in
theorem round_runs (x : Expansion) (hx : x.halted = false) (ha : agenda x.work.graph ≠ []) :
    ∃ n rest, Runs env macros n ⟨x, []⟩ ⟨fullRound env macros x, rest⟩ ∧
      ((fullRound env macros x).halted = false → rest = []) := by
  have hstep : Step env macros ⟨x, []⟩ ⟨countRound x, agenda x.work.graph⟩ := .round x hx ha
  rw [agenda] at hstep
  rw [fullRound, round]
  split at hstep
  · next hi =>
      rw [if_pos hi]
      exact ⟨_, [], .step hstep (collapse_runs _ (countRound x) hx), fun _ => rfl⟩
  · next hi =>
      rw [if_neg hi]
      obtain ⟨n, rest, hr, hl⟩ := expand_runs env macros _ (countRound x)
      exact ⟨n + 1, rest, .step hstep hr, hl⟩

end Loop

/-- There are as many rounds left as the instances may still nest, and one for the tunnels. -/
def Afford (limit fuel : Nat) (x : Expansion) : Prop :=
  x.halted = true ∨ Expanded x.work.graph ∨ ∃ d, d ≤ limit + 1 ∧ limit + 2 ≤ fuel + d ∧ Deep d x.work ∧
    (limit < d → ∀ k n, x.work.graph.node? k = some n → n.kind.isInstance = false)

theorem fullRound_afford {fuel : Nat} (x : Expansion) (hx : x.halted = false)
    (ha : ¬ Expanded x.work.graph) (h : Afford env.options.maxExpansionDepth (fuel + 1) x) :
    Afford env.options.maxExpansionDepth fuel (fullRound env macros x) := by
  rcases h with hh | he | ⟨d, hd, hf, hdeep, hnone⟩
  · rw [hh] at hx
    cases hx
  · exact absurd he ha
  rw [fullRound, round]
  split
  · next hi =>
      have hi := findNodes_eq_nil.mp (List.isEmpty_iff.mp hi)
      refine Or.inr (Or.inl (foldl_collapseTunnel_hollow _ _ ?_).expanded)
      exact fun k n hk => ⟨hi k n hk, fun ht => Graph.mem_findNodes.mpr ⟨n, hk, ht⟩⟩
  · next hi =>
      cases hh : ((x.work.graph.findNodes fun n => n.kind.isInstance).foldl (expandInstance env macros)
          (Loop.countRound x)).halted with
      | true => exact Or.inl hh
      | false =>
          have hn := foldl_expandInstance_nested _ (Loop.countRound x) hdeep.nested hh
          -- Past the limit there would have been no instance to expand.
          have hd : d ≤ env.options.maxExpansionDepth :=
            Nat.le_of_not_lt fun hl => hi (List.isEmpty_iff.mpr (findNodes_eq_nil.mpr (hnone hl)))
          refine Or.inr (Or.inr ⟨d + 1, by omega, by omega, hn.deep, ?_⟩)
          exact fun hl k n hk => hn.none_left (by omega) hk

variable (macros) in
theorem rounds_runs (fuel : Nat) (x : Expansion) (h : Afford env.options.maxExpansionDepth fuel x) :
    ∃ steps last, Loop.Runs env macros steps ⟨x, []⟩ last ∧ (∀ next, ¬ Loop.Step env macros last next) ∧
      last.state = rounds env macros fuel x ∧
        (Expanded last.state.work.graph ∨ last.state.halted = true) := by
  by_cases hx : x.halted = true
  · exact ⟨0, _, .done _, Loop.not_step_of_halted hx, (rounds_halted fuel hx).symm, Or.inr hx⟩
  induction fuel generalizing x with
  | zero =>
      -- Without a round left, the depth would have passed the limit by more than one.
      rcases h with hh | he | ⟨d, hd, hf, _⟩
      · exact absurd hh hx
      · exact ⟨0, _, .done _, Loop.not_step_of_expanded he, rfl, Or.inl he⟩
      · omega
  | succ fuel ih =>
      rw [rounds_succ]
      by_cases he : Expanded x.work.graph
      · rw [if_pos (Or.inr (expanded_iff.mp he))]
        exact ⟨0, _, .done _, Loop.not_step_of_expanded he, rfl, Or.inl he⟩
      have hx' : x.halted = false := Bool.eq_false_iff.mpr hx
      obtain ⟨n, rest, hr, hrest⟩ := Loop.round_runs env macros x hx' (mt expanded_iff.mpr he)
      rw [if_neg (not_or.mpr ⟨hx, mt expanded_iff.mpr he⟩)]
      cases hh : (fullRound env macros x).halted with
      | true => exact ⟨n, _, hr, Loop.not_step_of_halted hh, (rounds_halted fuel hh).symm, Or.inr hh⟩
      | false =>
          cases hrest hh
          obtain ⟨steps, last, hl, hlast⟩ := ih _ (fullRound_afford x hx' he h) (Bool.eq_false_iff.mp hh)
          exact ⟨n + steps, last, hr.trans hl, hlast⟩

theorem Loop.exists_last (env : Env) (macros : MacroLibrary) (w : Working) :
    ∃ steps last, Runs env macros steps (start w) last ∧ (∀ next, ¬ Step env macros last next) ∧
      last.state = w.expand env macros ∧ (Expanded last.state.work.graph ∨ last.state.halted = true) := by
  have hafford : Afford env.options.maxExpansionDepth (env.options.maxExpansionDepth + 2) { work := w } :=
    Or.inr (Or.inr ⟨0, Nat.zero_le _, Nat.le_refl _, fun _ _ _ _ => Nat.zero_le _,
      fun h => absurd h (Nat.not_lt_zero _)⟩)
  exact rounds_runs macros _ _ hafford

/-- Whatever the macros refer to, the loop comes to an end. It ends when nothing is left to expand, or
at a ceiling, and then that is the last thing it reports. -/
theorem expand_terminates (env : Env) (macros : MacroLibrary) (w : Working) :
    ∃ steps last, Loop.Runs env macros steps (Loop.start w) last ∧
      (∀ next, ¬ Loop.Step env macros last next) ∧
      (∀ k other, Loop.Runs env macros k (Loop.start w) other → k ≤ steps) ∧
      last.state = w.expand env macros ∧
      (Expanded (w.expand env macros).work.graph ∨
        (w.expand env macros).work.hasErrors = true ∧ ∃ log name detail location,
          (w.expand env macros).work.diagnostics =
            w.diagnostics ++ log ++ [⟨.recursiveExpansion name detail, location⟩]) := by
  obtain ⟨steps, last, hr, hstuck, hexpand, hend⟩ := Loop.exists_last env macros w
  refine ⟨steps, last, hr, hstuck, fun k other hk => hr.le_of_stuck hstuck hk, hexpand, ?_⟩
  rw [← hexpand]
  refine hend.imp id fun hh => ?_
  obtain ⟨log, name, detail, location, hd⟩ := hr.reported hh
  refine ⟨?_, log, name, detail, location, hd⟩
  rw [Working.hasErrors, hd, List.any_append]
  exact Bool.or_eq_true_iff.mpr (Or.inr rfl)

end VisualScript.Expansion
