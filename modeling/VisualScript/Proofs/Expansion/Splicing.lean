import VisualScript.Proofs.Expansion.Edits
import VisualScript.Proofs.Graph.Ports
import VisualScript.Proofs.Graph.Tidy

namespace VisualScript.Expansion

section Chains

variable {α : Type} {L : α → α → Prop} {p q a b : α} {pairs : List (α × α)}

/-- A chain of links in which each link but the first starts at the port that is paired with the end of
the one before. -/
inductive Chain (L : α → α → Prop) (P : α → α → Prop) : α → α → Prop
  | link {a b : α} (h : L a b) : Chain L P a b
  | through {a p q b : α} (h : L a p) (hp : P p q) (hc : Chain L P q b) : Chain L P a b

def bypass (L : α → α → Prop) (p q : α) (s t : α) : Prop := (L s t ∧ t ≠ p ∧ s ≠ q) ∨ (L s p ∧ L q t)

theorem Chain.mono {L' P P' : α → α → Prop} {S : α → Prop} (h : Chain L P a b) (ha : S a)
    (hS : ∀ s t, P s t → S t) (hL : ∀ s t, S s → L s t → L' s t) (hP : ∀ s t, P s t → P' s t) :
    Chain L' P' a b := by
  induction h with
  | link h => exact .link (hL _ _ ha h)
  | through h hp _ ih => exact .through (hL _ _ ha h) (hP _ _ hp) (ih (hS _ _ hp))

theorem chain_of_bypass (h : Chain (bypass L p q) (fun s t => (s, t) ∈ pairs) a b) :
    Chain L (fun s t => (s, t) ∈ (p, q) :: pairs) a b := by
  induction h with
  | link h =>
      rcases h with ⟨h, _⟩ | ⟨h, h'⟩
      · exact .link h
      · exact .through h List.mem_cons_self (.link h')
  | through h hp _ ih =>
      have hp := List.mem_cons_of_mem (p, q) hp
      rcases h with ⟨h, _⟩ | ⟨h, h'⟩
      · exact .through h hp ih
      · exact .through h List.mem_cons_self (.through h' hp ih)

theorem bypass_of_chain (hpairs : ∀ r ∈ pairs, p ≠ r.1 ∧ q ≠ r.2) (hloop : ¬ L q p)
    (h : Chain L (fun s t => (s, t) ∈ (p, q) :: pairs) a b) (hb : b ≠ p) :
    (a ≠ q → Chain (bypass L p q) (fun s t => (s, t) ∈ pairs) a b) ∧
      (a = q → ∀ s, L s p → Chain (bypass L p q) (fun s t => (s, t) ∈ pairs) s b) := by
  induction h with
  | link h => exact ⟨fun ha => .link (Or.inl ⟨h, hb, ha⟩), fun ha s hs => .link (Or.inr ⟨hs, ha ▸ h⟩)⟩
  | @through a p' q' b h hp _ ih =>
      -- A chain that passes the pair is led on from its source; other pairs keep clear of both ports.
      rcases List.mem_cons.mp hp with he | hp
      · cases he
        refine ⟨fun _ => (ih hb).2 rfl a h, fun ha => ?_⟩
        exact absurd (ha ▸ h) hloop
      · obtain ⟨hp', hq'⟩ := hpairs _ hp
        have hc := (ih hb).1 hq'.symm
        refine ⟨fun ha => .through (Or.inl ⟨h, hp'.symm, ha⟩) hp hc, fun ha s hs => ?_⟩
        exact .through (Or.inr ⟨hs, ha ▸ h⟩) hp hc

theorem chain_bypass (hpairs : ∀ r ∈ pairs, p ≠ r.1 ∧ q ≠ r.2) (hloop : ¬ L q p)
    (ha : a ≠ q) (hb : b ≠ p) : Chain L (fun s t => (s, t) ∈ (p, q) :: pairs) a b ↔
      Chain (bypass L p q) (fun s t => (s, t) ∈ pairs) a b :=
  ⟨fun h => (bypass_of_chain hpairs hloop h hb).1 ha, chain_of_bypass⟩

theorem chain_nil : Chain L (fun s t => (s, t) ∈ ([] : List (α × α))) a b ↔ L a b := by
  refine ⟨fun h => ?_, .link⟩
  cases h with
  | link h => exact h
  | through _ hp => cases hp

end Chains

variable {site : NodeId} {env : Env} {w w' : Working}

theorem Edits.quiet {w'' : Working} (h : Edits site w w') (h' : Edits site w' w'')
    (hq : w''.diagnostics = w.diagnostics) :
    w'.diagnostics = w.diagnostics ∧ w''.diagnostics = w'.diagnostics := by
  have hle := h.diagnostics_prefix
  have hle' := h'.diagnostics_prefix
  rw [hq] at hle'
  have he := hle.eq_of_length (Nat.le_antisymm hle.length_le hle'.length_le)
  exact ⟨he.symm, hq.trans he⟩

theorem rewire_linked (w : Working) {source sink : PortRef} (h : w.graph.Tidy)
    (hd : w.graph.PortAt .output source ∨ w.graph.PortAt .input sink)
    (hq : (rewire w source sink).diagnostics = w.diagnostics) :
    (rewire w source sink).graph.Tidy ∧ (rewire w source sink).graph.slots = w.graph.slots ∧
      ∀ a b, (rewire w source sink).graph.Linked a b ↔ (a = source ∧ b = sink) ∨ w.graph.Linked a b := by
  unfold rewire at hq ⊢
  cases hc : w.graph.connect source sink with
  | error e =>
      rw [hc] at hq
      exact absurd hq (by simp [Working.report])
  | ok r =>
      obtain ⟨l, g⟩ := r
      refine ⟨h.connect hc, Graph.connect_slots hc, ?_⟩
      obtain ⟨s, t, role, hcheck, hl⟩ := Graph.connect_linked h hc
      obtain ⟨ps, pt, hs, ht, hds, hdt, _, _, _, ⟨rfl, rfl⟩ | ⟨rfl, rfl⟩⟩ := Graph.checkLink_cases hcheck
      · exact hl
      · -- The ports would have been taken the other way round, against the side one of them is on.
        exfalso
        rcases hd with ⟨port, hp, hd⟩ | ⟨port, hp, hd⟩
        · rw [ht] at hp
          cases hp
          rw [hdt] at hd
          cases hd
        · rw [hs] at hp
          cases hp
          rw [hds] at hd
          cases hd

theorem foldl_rewire_linked (w : Working) {source : PortRef} (sinks : List PortRef) (h : w.graph.Tidy)
    (hd : w.graph.PortAt .output source ∨ ∀ t ∈ sinks, w.graph.PortAt .input t)
    (hq : (sinks.foldl (fun w sink => rewire w source sink) w).diagnostics = w.diagnostics) :
    (sinks.foldl (fun w sink => rewire w source sink) w).graph.Tidy ∧
      (sinks.foldl (fun w sink => rewire w source sink) w).graph.slots = w.graph.slots ∧
      ∀ a b, (sinks.foldl (fun w sink => rewire w source sink) w).graph.Linked a b ↔
        (a = source ∧ b ∈ sinks) ∨ w.graph.Linked a b := by
  induction sinks generalizing w with
  | nil => exact ⟨h, rfl, by simp⟩
  | cons t rest ih =>
      have hedits : Edits 0 (rewire w source t)
        (rest.foldl (fun w sink => rewire w source sink) (rewire w source t)) :=
        foldl_edits _ (fun w sink => rewire_edits w source sink) rest _
      obtain ⟨hq₁, hq₂⟩ := (rewire_edits w source t).quiet hedits hq
      obtain ⟨ha, hs, hl⟩ := rewire_linked w h (hd.imp_right fun hd => hd t List.mem_cons_self) hq₁
      have hd : (rewire w source t).graph.PortAt .output source ∨ ∀ t' ∈ rest,
          (rewire w source t).graph.PortAt .input t' := by
        simp only [(Graph.SameOutline.ofSlots hs).portAt]
        exact hd.imp_right fun hd t' ht' => hd t' (List.mem_cons_of_mem _ ht')
      obtain ⟨ha', hs', hl'⟩ := ih (rewire w source t) ha hd hq₂
      refine ⟨ha', hs'.trans hs, fun a b => ?_⟩
      rw [List.foldl_cons, hl', hl, List.mem_cons, and_or_left, or_assoc, or_left_comm]

theorem rewireAll_linked (w : Working) (sources sinks : List PortRef) (h : w.graph.Tidy)
    (hd : (∀ s ∈ sources, w.graph.PortAt .output s) ∨ ∀ t ∈ sinks, w.graph.PortAt .input t)
    (hq : (rewireAll w sources sinks).diagnostics = w.diagnostics) :
    (rewireAll w sources sinks).graph.Tidy ∧ (rewireAll w sources sinks).graph.slots = w.graph.slots ∧
      ∀ a b, (rewireAll w sources sinks).graph.Linked a b ↔
        (a ∈ sources ∧ b ∈ sinks) ∨ w.graph.Linked a b := by
  induction sources generalizing w with
  | nil => exact ⟨h, rfl, by simp [rewireAll]⟩
  | cons s rest ih =>
      let next := sinks.foldl (fun w sink => rewire w s sink) w
      have hnext : Edits 0 w next := foldl_edits _ (fun w sink => rewire_edits w s sink) sinks w
      obtain ⟨hq₁, hq₂⟩ := hnext.quiet (rewireAll_edits next rest sinks) hq
      obtain ⟨ha, hs, hl⟩ : next.graph.Tidy ∧ next.graph.slots = w.graph.slots ∧ _ :=
        foldl_rewire_linked w sinks h (hd.imp_left fun hd => hd s List.mem_cons_self) hq₁
      have hd : (∀ s' ∈ rest, next.graph.PortAt .output s') ∨ ∀ t ∈ sinks, next.graph.PortAt .input t := by
        simp only [(Graph.SameOutline.ofSlots hs).portAt]
        exact hd.imp_left fun hd s' hs' => hd s' (List.mem_cons_of_mem _ hs')
      obtain ⟨ha', hs', hl'⟩ := ih next ha hd hq₂
      refine ⟨ha', hs'.trans hs, fun a b => ?_⟩
      have hstep : (rewireAll w (s :: rest) sinks).graph.Linked a b ↔
          (rewireAll next rest sinks).graph.Linked a b := .rfl
      rw [hstep, hl', hl, List.mem_cons, or_and_right, or_assoc, or_left_comm]

theorem wire_eq (hdebug : env.options.debugInstrumentation = false) (x : Expansion) (role : Role)
    (sources sinks : List PortRef) (boundary : Option BoundarySite) (callSite : NodeId) :
    wire env x role sources sinks boundary callSite = x.onWork fun w => rewireAll w sources sinks := by
  unfold wire
  split <;> simp [hdebug]

theorem setDefaults_kept (g : ScriptGraph) (sinks : List PortRef) (value : String) (h : g.Tidy) :
    (sinks.foldl (fun g p => g.setDefault p (some value)) g).Tidy ∧
      (sinks.foldl (fun g p => g.setDefault p (some value)) g).links = g.links ∧
      (sinks.foldl (fun g p => g.setDefault p (some value)) g).SameOutline g := by
  induction sinks generalizing g with
  | nil => exact ⟨h, rfl, fun _ => rfl⟩
  | cons p rest ih =>
      obtain ⟨ha, hl, ho⟩ := ih (g.setDefault p (some value)) (h.modifyNode _ _)
      exact ⟨ha, hl, ho.trans (Graph.outline_setDefault g p _)⟩

/-- With nothing to report, splicing an input port with an output port bypasses the two. -/
theorem splice_linked (hdebug : env.options.debugInstrumentation = false) (x : Expansion)
    {up down : PortRef} (boundary : Option BoundarySite) (callSite : NodeId) (h : x.work.graph.Tidy)
    (hup : x.work.graph.PortAt .input up) (hdown : x.work.graph.PortAt .output down)
    (hd : (∀ s, x.work.graph.Linked s up → x.work.graph.PortAt .output s) ∨ ∀ t,
      x.work.graph.Linked down t → x.work.graph.PortAt .input t)
    (hq : (splice env x up down boundary callSite).work.diagnostics = x.work.diagnostics) :
    (splice env x up down boundary callSite).work.graph.Tidy ∧
      (splice env x up down boundary callSite).work.graph.SameOutline x.work.graph ∧
      ∀ a b, (splice env x up down boundary callSite).work.graph.Linked a b ↔
        bypass x.work.graph.Linked up down a b := by
  obtain ⟨port, hup, hin⟩ := hup
  obtain ⟨port', hdown, hout⟩ := hdown
  let g := (x.work.graph.disconnect up).disconnect down
  have hsame : g.SameOutline x.work.graph :=
    .ofSlots ((Graph.disconnect_slots _ _).trans (Graph.disconnect_slots _ _))
  have htidy : g.Tidy := (h.disconnect up).disconnect down
  have hcut (a b : PortRef) : g.Linked a b ↔ x.work.graph.Linked a b ∧ b ≠ up ∧ a ≠ down := by
    have hdown' : (x.work.graph.disconnect up).port? down = some port' := by
      rw [Graph.port?_congr (Graph.disconnect_slots _ _), hdown]
    rw [Graph.linked_disconnect (h.disconnect up) hdown', Graph.linked_disconnect h hup, hout, hin,
      and_assoc]
  have hsource (s : PortRef) : s ∈ x.work.graph.farEnds up ↔ x.work.graph.Linked s up :=
    Graph.mem_farEnds_input h.unthreaded hup hin
  have hsink (t : PortRef) : t ∈ x.work.graph.farEnds down ↔ x.work.graph.Linked down t :=
    Graph.mem_farEnds_output h.unthreaded hdown hout
  simp only [splice, hup] at hq ⊢
  split at hq
  · next he =>
      rw [if_pos he]
      -- No link leads to `up`, so cutting off both ports is all there is to do.
      have hempty : x.work.graph.farEnds up = [] := List.isEmpty_iff.mp he.2
      have hnone (a : PortRef) : ¬ x.work.graph.Linked a up := by
        rw [← hsource, hempty]
        exact List.not_mem_nil
      have hl (a b : PortRef) : g.Linked a b ↔ bypass x.work.graph.Linked up down a b := by
        simp only [hcut, bypass, hnone, false_and, or_false]
      cases port.default with
      | none => exact ⟨htidy, hsame, hl⟩
      | some value =>
          obtain ⟨ha, hlinks, ho⟩ := setDefaults_kept g (x.work.graph.farEnds down) value htidy
          refine ⟨ha, ho.trans hsame, fun a b => ?_⟩
          exact (Graph.Linked.congr hlinks a b).trans (hl a b)
  · next he =>
      rw [if_neg he]
      rw [wire_eq hdebug] at hq ⊢
      have hd : (∀ s ∈ x.work.graph.farEnds up, g.PortAt .output s) ∨
          ∀ t ∈ x.work.graph.farEnds down, g.PortAt .input t := by
        simp only [hsame.portAt, hsource, hsink]
        exact hd
      obtain ⟨ha, hs, hl⟩ := rewireAll_linked { x.work.inspect up with graph := g } _ _ htidy hd hq
      refine ⟨ha, (Graph.SameOutline.ofSlots hs).trans hsame, fun a b => ?_⟩
      refine (hl a b).trans ?_
      rw [hsource, hsink, or_comm]
      exact or_congr_left (hcut a b)

def Site.pair? (s : Site) (g : ScriptGraph) (p : UInt16 × Port) : Option (PortRef × PortRef) :=
  match p.2.direction with
  | .input => (s.input.bind fun t => g.findPort? t p.2.name .output).map fun inner => (⟨s.id, p.1⟩, inner)
  | .output => (s.output.bind fun t => g.findPort? t p.2.name .input).map fun inner => (inner, ⟨s.id, p.1⟩)

variable (env) in
theorem joinPort_some {s : Site} {x : Expansion} {p : UInt16 × Port} {up down : PortRef}
    (h : s.pair? x.work.graph p = some (up, down)) :
    ∃ boundary, joinPort env s x p = splice env x up down (some boundary) s.id := by
  unfold Site.pair? at h
  unfold joinPort
  cases hd : p.2.direction <;> simp only [hd] at h ⊢ <;> obtain ⟨inner, hi, he⟩ :=
    Option.map_eq_some_iff.mp h <;>
    cases he <;> rw [hi] <;> exact ⟨_, rfl⟩

theorem joinPort_none {s : Site} {x : Expansion} {p : UInt16 × Port} (h : s.pair? x.work.graph p = none) :
    (joinPort env s x p).work.graph = x.work.graph ∧ (joinPort env s x p).stats = x.stats := by
  unfold Site.pair? at h
  unfold joinPort
  cases hd : p.2.direction <;> simp only [hd, Option.map_eq_none_iff] at h ⊢ <;> rw [h] <;>
    simp only <;> split <;>
    exact ⟨rfl, rfl⟩

theorem Site.pair?_congr {g g' : ScriptGraph} (h : g'.SameOutline g) (s : Site) (p : UInt16 × Port) :
    s.pair? g' p = s.pair? g p := by
  simp only [Site.pair?, h.findPort?]

/-- A port of an instance with a port of a node that was copied in for it. -/
structure Boundary (g : ScriptGraph) (id : NodeId) (copies : List NodeId) (r : PortRef × PortRef) :
    Prop where
  up : g.PortAt .input r.1
  down : g.PortAt .output r.2
  sides : (r.1.node = id ∧ r.2.node ∈ copies) ∨ (r.1.node ∈ copies ∧ r.2.node = id)

/-- A graph `g` in which links were bypassed. The instance still has links to the outside only. -/
structure Halfway (g : ScriptGraph) (id : NodeId) (copies : List NodeId) (g' : ScriptGraph) : Prop where
  tidy : g'.Tidy
  same : g'.SameOutline g
  source : ∀ a b, g'.Linked a b → b.node = id → a.node ≠ id ∧ a.node ∉ copies ∧ g.PortAt .output a
  target : ∀ a b, g'.Linked a b → a.node = id → b.node ≠ id ∧ b.node ∉ copies ∧ g.PortAt .input b

variable {g g' : ScriptGraph} {id : NodeId} {copies : List NodeId} {r : PortRef × PortRef}

theorem Halfway.not_linked (h : Halfway g id copies g') (hr : Boundary g id copies r) :
    ¬ g'.Linked r.2 r.1 := by
  intro hl
  rcases hr.sides with ⟨hid, hc⟩ | ⟨hc, hid⟩
  · exact (h.source _ _ hl hid).2.1 hc
  · exact (h.target _ _ hl hid).2.1 hc

theorem Halfway.bypass_ends (h : Halfway g id copies g') (hr : Boundary g id copies r) {a b : PortRef}
    (ha : g'.Linked a r.1) (hb : g'.Linked r.2 b) : a.node ≠ id ∧ b.node ≠ id := by
  rcases hr.sides with ⟨hid, hc⟩ | ⟨hc, hid⟩
  · exact ⟨(h.source _ _ ha hid).1, fun hbid => (h.source _ _ hb hbid).2.1 hc⟩
  · exact ⟨fun haid => (h.target _ _ ha haid).2.1 hc, (h.target _ _ hb hid).1⟩

theorem Halfway.splice (hdebug : env.options.debugInstrumentation = false) {x : Expansion}
    (h : Halfway g id copies x.work.graph) (hr : Boundary g id copies r)
    (boundary : Option BoundarySite) (callSite : NodeId)
    (hq : (splice env x r.1 r.2 boundary callSite).work.diagnostics = x.work.diagnostics) :
    Halfway g id copies (splice env x r.1 r.2 boundary callSite).work.graph ∧
      ∀ a b, (Expansion.splice env x r.1 r.2 boundary callSite).work.graph.Linked a b ↔
        bypass x.work.graph.Linked r.1 r.2 a b := by
  have hd : (∀ s, x.work.graph.Linked s r.1 → x.work.graph.PortAt .output s) ∨
      ∀ t, x.work.graph.Linked r.2 t → x.work.graph.PortAt .input t := by
    simp only [h.same.portAt]
    rcases hr.sides with ⟨hid, _⟩ | ⟨_, hid⟩
    · exact Or.inl fun s hs => (h.source _ _ hs hid).2.2
    · exact Or.inr fun t ht => (h.target _ _ ht hid).2.2
  obtain ⟨htidy, hsame, hl⟩ := splice_linked hdebug x boundary callSite h.tidy (h.same.portAt.mpr hr.up)
    (h.same.portAt.mpr hr.down) hd hq
  refine ⟨⟨htidy, hsame.trans h.same, fun a b hab hid => ?_, fun a b hab hid => ?_⟩, hl⟩
  · rcases (hl a b).mp hab with ⟨hab, _⟩ | ⟨ha, hb⟩
    · exact h.source a b hab hid
    · exact absurd hid (h.bypass_ends hr ha hb).2
  · rcases (hl a b).mp hab with ⟨hab, _⟩ | ⟨ha, hb⟩
    · exact h.target a b hab hid
    · exact absurd hid (h.bypass_ends hr ha hb).1

/-- Joining the ports of an instance to a body one after the other turns chains into links. -/
theorem foldl_joinPort_linked (hdebug : env.options.debugInstrumentation = false) {s : Site}
    (ports : List (UInt16 × Port)) (x : Expansion) (h : Halfway g s.id copies x.work.graph)
    (hpairs : ∀ r ∈ ports.filterMap (s.pair? g), Boundary g s.id copies r)
    (hdistinct : (ports.filterMap (s.pair? g)).Pairwise fun r r' => r.1 ≠ r'.1 ∧ r.2 ≠ r'.2)
    (hq : (ports.foldl (joinPort env s) x).work.diagnostics = x.work.diagnostics) :
    Halfway g s.id copies (ports.foldl (joinPort env s) x).work.graph ∧
      ∀ a b, (∀ r ∈ ports.filterMap (s.pair? g), a ≠ r.2 ∧ b ≠ r.1) →
        (Chain x.work.graph.Linked (fun p q => (p, q) ∈ ports.filterMap (s.pair? g)) a b ↔
          (ports.foldl (joinPort env s) x).work.graph.Linked a b) := by
  induction ports generalizing x with
  | nil => exact ⟨h, fun a b _ => chain_nil⟩
  | cons p rest ih =>
      obtain ⟨hq₁, hq₂⟩ := (joinPort_moves env s x p).2.quiet
        (Moves.foldl (joinPort env s) (joinPort_moves env s) rest (joinPort env s x p)).2 hq
      have hp := Site.pair?_congr h.same s p
      cases hpair : s.pair? g p with
      | none =>
          rw [List.filterMap_cons_none hpair] at hpairs hdistinct ⊢
          have hg : (joinPort env s x p).work.graph = x.work.graph := (joinPort_none (hp.trans hpair)).1
          have hrest := ih (joinPort env s x p) (by rw [hg]; exact h) hpairs hdistinct hq₂
          rw [hg] at hrest
          exact hrest
      | some r =>
          rw [List.filterMap_cons_some hpair] at hpairs hdistinct ⊢
          obtain ⟨hr, hpairs⟩ := List.forall_mem_cons.mp hpairs
          obtain ⟨hne, hdistinct⟩ := List.pairwise_cons.mp hdistinct
          obtain ⟨boundary, hj⟩ := joinPort_some env (hp.trans hpair)
          rw [hj] at hq₁
          -- The splice takes this pair out of every chain; the pairs that are left do not share a
          -- port with it.
          obtain ⟨hh, hl⟩ := h.splice hdebug hr (some boundary) s.id hq₁
          rw [← hj] at hh hl
          obtain ⟨hfinal, hchain⟩ := ih (joinPort env s x p) hh hpairs hdistinct hq₂
          refine ⟨hfinal, fun a b hab => ?_⟩
          obtain ⟨hab, habs⟩ := List.forall_mem_cons.mp hab
          have hlinked : (joinPort env s x p).work.graph.Linked = bypass x.work.graph.Linked r.1 r.2 :=
            funext fun a => funext fun b => propext (hl a b)
          rw [chain_bypass hne (h.not_linked hr) hab.1 hab.2, ← hlinked]
          exact hchain a b habs

end VisualScript.Expansion
