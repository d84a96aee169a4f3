import VisualScript.Proofs.Expansion.Origins

namespace VisualScript

theorem Graph.exists_node_of_port {κ : Type} {g : Graph κ} {p : PortRef} {port : Port}
    (h : g.port? p = some port) :
    ∃ n, g.node? p.node = some n :=
  (Option.bind_eq_some_iff.mp h).imp fun _ => And.left

namespace Expansion

open Working

variable {u : CompilationUnit} {A : SourceRef → Prop} {limit : Nat} {muted : NodeId → Prop}
    {env : Env} {macros : MacroLibrary}
variable {body : ScriptGraph} {id : NodeId} {n : ScriptNode}
  {w w' : Working} {x : Expansion} {site : NodeId}

theorem connect_traced (h : w.Traced u A limit muted) {a b : PortRef} (ha : ¬ muted a.node)
    (hb : ¬ muted b.node) {l : LinkId} {g : ScriptGraph} (hc : w.graph.connect a b = .ok (l, g)) :
    Traced u A limit muted { w with graph := g } := by
  obtain ⟨source, target, role, hcheck, hlinked⟩ := Graph.connect_linked h.tidy hc
  obtain ⟨ps, pt, hps, hpt, -, -, -, -, -, hends⟩ := Graph.checkLink_cases hcheck
  refine h.relink (.ofSlots (Graph.connect_slots hc)) (h.tidy.connect hc) fun hl => ?_
  rcases (hlinked _ _).mp hl with ⟨rfl, rfl⟩ | hl
  · rcases hends with ⟨rfl, rfl⟩ | ⟨rfl, rfl⟩
    · exact ⟨⟨Graph.exists_node_of_port hps, ha⟩, Graph.exists_node_of_port hpt, hb⟩
    · exact ⟨⟨Graph.exists_node_of_port hps, hb⟩, Graph.exists_node_of_port hpt, ha⟩
  · exact h.joined hl

theorem rewire_traced (h : w.Traced u A limit muted) {source sink : PortRef}
    (hs : ¬ muted source.node) (ht : ¬ muted sink.node) :
    (rewire w source sink).Traced u A limit muted := by
  rw [rewire]
  split
  · next hc => exact connect_traced h hs ht hc
  · exact h.reportAt _ ht _

theorem rewireAll_traced (h : w.Traced u A limit muted) {sources sinks : List PortRef}
    (hs : ∀ p ∈ sources, ¬ muted p.node) (ht : ∀ p ∈ sinks, ¬ muted p.node) :
    (rewireAll w sources sinks).Traced u A limit muted :=
  List.foldlRecOn (motive := fun w : Working => w.Traced u A limit muted) _ _ h fun _ hw p hp =>
    List.foldlRecOn (motive := fun w : Working => w.Traced u A limit muted) _ _ hw fun _ hw q hq =>
      rewire_traced hw (hs p hp) (ht q hq)

theorem disconnect_traced (h : w.Traced u A limit muted) (p : PortRef) :
    Traced u A limit muted { w with graph := w.graph.disconnect p } := by
  refine h.relink (.ofSlots (Graph.disconnect_slots _ p)) (h.tidy.disconnect p) ?_
  rintro a b ⟨l, hl, hab⟩
  exact h.joined ⟨l, ((Graph.mem_links_foldl_removeLink _).mp hl).1, hab⟩

theorem setDefaults_traced (h : w.Traced u A limit muted) (sinks : List PortRef) (value : Option String) :
    Traced u A limit muted { w with graph := sinks.foldl (fun g p => g.setDefault p value) w.graph } := by
  induction sinks generalizing w with
  | nil => exact h
  | cons p rest ih =>
      have hp : Traced u A limit muted { w with graph := w.graph.setDefault p value } :=
        h.relink (Graph.outline_setDefault w.graph p value) (h.tidy.modifyNode _ _) h.joined
      exact ih hp

/-- The node is not nested too deep to be expanded. -/
structure Opens (A : SourceRef → Prop) (limit : Nat) (w : Working) (site : NodeId) (o : Origin) :
    Prop where
  origin : w.provenance.get? site = some o
  depth : o.depth < limit
  source : A o.source
  sites : ∀ s ∈ o.callSites, A s

variable {o : Origin}

theorem Opens.through (h : Opens A limit w site o) {s : SourceRef} (hs : A s) (synthesized : Bool) :
    (o.through s synthesized).Rooted A limit False where
  shallow := by
    rw [Origin.depth_through]
    exact h.depth
  sites s' hs' := by
    rcases List.mem_append.mp hs' with hs' | hs'
    · exact h.sites s' hs'
    · exact List.mem_singleton.mp hs' ▸ h.source
  source _ := hs

theorem Opens.edits (h : Opens A limit w site o) (hw : w.Accounted) (he : Edits site w w') :
    Opens A limit w' site o :=
  ⟨(he.extends hw h.origin).2.kept h.origin, h.depth, h.source, h.sites⟩

theorem ne_composite_of_isInstance {k : NodeKind} (h : k.isInstance = false) (body : ScriptGraph) :
    k ≠ .composite body := by
  rintro rfl
  cases h

section

variable (h : x.work.Traced u A limit muted)
include h

theorem synthesize_traced (ho : Opens A limit x.work site o) (hn : n.kind.isInstance = false) :
    (x.synthesize n site).2.work.Traced u A limit muted ∧ ¬ muted (x.synthesize n site).1 := by
  have hadd := h.addNode (ne_composite_of_isInstance hn) (ho.through ho.source true)
  refine ⟨?_, h.not_muted_of_vacant (h.tidy.addNode_fresh n)⟩
  simp only [synthesize, Provenance.recordSynthesized, Provenance.originOrSelf_of_get? _ ho.origin]
  exact hadd

theorem wire_traced {sources sinks : List PortRef} (hs : ∀ p ∈ sources, ¬ muted p.node)
    (ht : ∀ p ∈ sinks, ¬ muted p.node) (role : Role) {boundary : Option BoundarySite}
    (ho : boundary = none ∨ ∃ o, Opens A limit x.work site o) :
    (wire env x role sources sinks boundary site).work.Traced u A limit muted := by
  unfold wire
  split
  · split
    · obtain ⟨o, ho⟩ := ho.resolve_left (Option.some_ne_none _)
      obtain ⟨hx, hid⟩ := synthesize_traced h ho (n := ScriptNode.tunnelBoundary _) rfl
      exact rewireAll_traced (rewireAll_traced hx hs (List.forall_mem_singleton.mpr hid))
        (List.forall_mem_singleton.mpr hid) ht
    · exact rewireAll_traced h hs ht
  · exact rewireAll_traced h hs ht

theorem splice_traced (up down : PortRef) {boundary : Option BoundarySite}
    (ho : boundary = none ∨ ∃ o, Opens A limit x.work site o) :
    (splice env x up down boundary site).work.Traced u A limit muted := by
  rw [splice]
  cases x.work.graph.port? up with
  | none => exact h
  | some port =>
      have hx : (x.inspect up).work.Traced u A limit muted := h.congr rfl rfl rfl
      have hcut := disconnect_traced (disconnect_traced hx up) down
      simp only
      split
      · cases port.default with
        | none => exact hcut
        | some value => exact setDefaults_traced hcut _ _
      · exact wire_traced hcut (fun _ => h.not_muted_far) (fun _ => h.not_muted_far) _
          (ho.imp_right (Exists.imp fun _ ho => ⟨ho.origin, ho.depth, ho.source, ho.sites⟩))

theorem joinPort_traced {s : Site} (hid : ¬ muted s.id) (ho : Opens A limit x.work s.id o)
    (p : UInt16 × Port) : (joinPort env s x p).work.Traced u A limit muted := by
  unfold joinPort
  extract_lets outer inner
  split
  · exact splice_traced h _ _ (Or.inr ⟨o, ho⟩)
  · exact splice_traced h _ _ (Or.inr ⟨o, ho⟩)
  · have hx : (x.inspect outer).work.Traced u A limit muted := h.congr rfl rfl rfl
    split
    · exact hx.reportAt _ hid _
    · exact hx

theorem feedPort_traced (ho : Opens A limit x.work site o) {copy : NodeId}
    (hcopy : ¬ muted copy) (p : UInt16 × Port) : (feedPort site copy x p).work.Traced u A limit muted := by
  rw [feedPort]
  cases hf : feeder? p.2 with
  | none => exact h
  | some f =>
      obtain ⟨hx, hid⟩ := synthesize_traced h ho (feeder?_kind hf).1
      exact rewire_traced hx hid hcopy

end

theorem foldl_traced {α : Type} {f : Expansion → α → Expansion} {l : List α}
    (hm : ∀ x a, Moves site x (f x a))
    (hf : ∀ x, ∀ a ∈ l, x.work.Traced u A limit muted → Opens A limit x.work site o →
      (f x a).work.Traced u A limit muted)
    (h : x.work.Traced u A limit muted) (ho : Opens A limit x.work site o) :
    (l.foldl f x).work.Traced u A limit muted ∧ Opens A limit (l.foldl f x).work site o := by
  refine List.foldlRecOn (motive := fun x : Expansion => x.work.Traced u A limit muted ∧
    Opens A limit x.work site o) l f ⟨h, ho⟩
    fun x hx a ha => ⟨hf x a ha hx.1 hx.2, hx.2.edits hx.1.toAccounted (hm x a).2⟩

theorem feedCopy_traced (h : x.work.Traced u A limit muted) (ho : Opens A limit x.work site o)
    {copy : NodeId} (hcopy : ¬ muted copy) :
    (feedCopy site x copy).work.Traced u A limit muted := by
  unfold feedCopy
  split
  · exact h
  · split
    · exact h
    · extract_lets inputs unlinked
      have hx := foldl_traced (l := inputs) (fun x p => inspect_moves x ⟨copy, p.1⟩)
        (fun _ _ _ hx _ => hx.congr rfl rfl rfl) h ho
      exact (foldl_traced (feedPort_moves copy) (fun _ p _ hx ho => feedPort_traced hx ho hcopy p)
        hx.1 hx.2).1

theorem connectBody_traced {s : Site} {copies : List NodeId} (h : x.work.Traced u A limit muted)
    (hid : ¬ muted s.id) (ho : Opens A limit x.work s.id o) (hcopies : ∀ k ∈ copies, ¬ muted k)
    (htunnels : ∀ k ∈ s.input.toList ++ s.output.toList, ¬ muted k) :
    (connectBody env x s copies).work.Traced u A limit muted := by
  have hjoin := foldl_traced (l := s.node.indexed) (joinPort_moves env s)
    (fun _ p _ hx ho => joinPort_traced hx hid ho p) h ho
  have hfeed := foldl_traced (l := copies) feedCopy_moves
    (fun _ k hk hx ho => feedCopy_traced hx ho (hcopies k hk)) hjoin.1 hjoin.2
  have hremove := hfeed.1.removeNodes htunnels
  rw [connectBody]
  simp only [onWork, foldl_removeTunnel]
  exact hremove.removeNode hid

theorem Traced.authors (h : w.Traced u A limit muted) (hn : w.graph.node? id = some n)
    {resolved : Option PinType} (hb : body? u.macros n.kind = some (body, resolved)) : u.Authors body := by
  cases hk : n.kind <;> rw [hk] at hb <;> try cases hb
  · obtain ⟨g, hg, he⟩ := Option.map_eq_some_iff.mp hb
    cases he
    exact .macroBody hg
  · exact h.bodies hn hk

theorem resolvedIn_traced (h : w.Traced u A limit muted) (hA : ∀ s, u.Authored s → A s)
    (ho : Opens A limit w id o) (hbody : u.Authors body) (resolved : Option PinType) :
    (resolvedIn w id body resolved).Traced u A limit muted ∧
      Opens A limit (resolvedIn w id body resolved) id o := by
  have hmerged : (mergedIn w id body).Traced u A limit muted := by
    refine h.merge hbody fun k => ?_
    rcases Provenance.get?_recordExpansion w.provenance ho.origin (w.graph.merge body).1 body.name k
      with hk | ⟨s, hs, hget⟩
    · exact Or.inl hk
    · obtain ⟨n, _, hn, -⟩ := h.tidy.mem_merge hs
      exact Or.inr ⟨s, _, hs, hget, ho.through (hA _ ⟨body, n, hbody, rfl, hn⟩) false⟩
  obtain ⟨htidy, hlinks⟩ := resolvePorts_kept resolved (w.graph.merge body).1.copies hmerged.tidy
  refine ⟨hmerged.relink (outline_resolvePorts _ _ _) htidy fun hl => hmerged.joined
    ((Graph.Linked.congr hlinks _ _).mp hl), ?_⟩
  exact ⟨(mergedIn_extends h.toAccounted ho.origin body).kept ho.origin, ho.depth, ho.source, ho.sites⟩

theorem inline_traced (h : x.work.Traced u A env.options.maxExpansionDepth muted)
    (hA : ∀ s, u.Authored s → A s) (hn : x.work.graph.node? id = some n)
    (hi : n.kind.isInstance = true) (hbody : u.Authors body) (resolved : Option PinType) :
    (inline env x id n body resolved).work.Traced u A env.options.maxExpansionDepth muted := by
  have hid : ¬ muted id := h.not_muted hn (isEntry_of_expanded (Or.inl hi))
  by_cases hd : env.options.maxExpansionDepth ≤ x.work.provenance.depth id
  · rw [inline, if_pos hd]
    exact h.reportAt _ hid _
  · obtain ⟨o, ho⟩ := h.origin hn
    rw [Provenance.depth_of_get? _ ho, Nat.not_le] at hd
    have hr := h.rooted ho
    have hopens : Opens A env.options.maxExpansionDepth x.work id o := ⟨ho, hd, hr.source hid, hr.sites⟩
    -- Copies come to places that were free, and what is muted has its place already.
    have hcopies (k : NodeId) (hk : k ∈ (x.work.graph.merge body).1.copies) : ¬ muted k :=
      h.not_muted_of_vacant (h.tidy.merge_fresh body hk)
    rw [← Provenance.depth_of_get? _ ho] at hd
    by_cases hl : env.options.maxExpandedNodes < (x.work.graph.merge body).2.nodeCount
    · simp only [inline, Nat.not_le.mpr hd, hl, if_false, if_true]
      exact (resolvedIn_traced h hA hopens hbody none).1.reportAt _ hid _
    · obtain ⟨hentered, hopens⟩ := resolvedIn_traced h hA hopens hbody resolved
      rw [inline_eq env x id n body resolved hd (Nat.not_lt.mp hl)]
      extract_lets copies inputs outputs
      split
      · refine (hentered.reportAt _ hid _).removeNodes fun k hk => ?_
        rcases List.mem_append.mp hk with hk | hk
        · exact hcopies k hk
        · exact List.mem_singleton.mp hk ▸ hid
      · refine connectBody_traced hentered hid hopens hcopies fun k hk => hcopies k ?_
        rcases List.mem_append.mp hk with hk | hk <;>
          exact (List.mem_filter.mp (List.mem_of_head? (Option.mem_toList.mp hk))).1

theorem expandInstance_traced (h : x.work.Traced u A env.options.maxExpansionDepth muted)
    (hA : ∀ s, u.Authored s → A s) (id : NodeId) :
    (expandInstance env u.macros x id).work.Traced u A env.options.maxExpansionDepth muted := by
  cases hh : x.halted with
  | true => rwa [expandInstance_halted x id hh]
  | false =>
      rcases expandInstance_cases x id hh with
        ⟨he, -⟩ | ⟨n, issue, hn, hi, he⟩ | ⟨n, body, resolved, hn, hb, he⟩
      · rwa [he]
      · have hid : ¬ muted id := h.not_muted hn (isEntry_of_expanded (Or.inl hi))
        rw [he]
        exact (h.reportAt issue hid none).removeNode hid
      · rw [he]
        exact inline_traced h hA hn (isInstance_of_body hb) (Traced.authors h hn hb) resolved

theorem collapseTunnel_traced (h : x.work.Traced u A limit muted) (hid : ¬ muted id) :
    (collapseTunnel env x id).work.Traced u A limit muted := by
  have hpass (n : ScriptNode) (x : Expansion) (hx : x.work.Traced u A limit muted) (p : UInt16 × Port) :
      (passPort env id n x p).work.Traced u A limit muted := by
    unfold passPort
    extract_lets here
    split
    · split
      · exact splice_traced hx _ _ (Or.inl rfl)
      · exact hx
    · have hx' : (x.inspect here).work.Traced u A limit muted := hx.congr rfl rfl rfl
      split
      · exact hx'.reportAt _ hid _
      · exact hx'
  rw [collapseTunnel]
  split
  · exact h
  · next n _ =>
    have hfold := List.foldlRecOn (motive := fun x : Expansion => x.work.Traced u A limit muted)
      n.indexed (passPort env id n) h
      fun x hx p _ => hpass n x hx p
    exact hfold.removeNode hid

/-- The function is traced, and no muted node waits for its turn. -/
structure Loop.Traced (u : CompilationUnit) (A : SourceRef → Prop) (limit : Nat)
    (muted : NodeId → Prop) (a : Loop) : Prop where
  work : a.state.work.Traced u A limit muted
  tasks : ∀ id, .collapse id ∈ a.tasks → ¬ muted id

theorem Loop.Step.traced {a b : Loop} (hs : Loop.Step env u.macros a b)
    (hA : ∀ s, u.Authored s → A s) (h : a.Traced u A env.options.maxExpansionDepth muted) :
    b.Traced u A env.options.maxExpansionDepth muted := by
  cases hs with
  | perform x task rest _ =>
      refine ⟨?_, fun id hid => h.tasks id (List.mem_cons_of_mem _ hid)⟩
      cases task with
      | expand id => exact expandInstance_traced h.work hA id
      | collapse id => exact collapseTunnel_traced h.work (h.tasks id List.mem_cons_self)
  | round x _ _ =>
      refine ⟨h.work, fun id hid => ?_⟩
      obtain ⟨_, n, hn, ⟨he, -⟩ | ⟨he, ht⟩⟩ := mem_agenda hid <;> cases he
      exact h.work.not_muted hn (isEntry_of_expanded (Or.inr ht))

theorem Loop.Runs.traced {n : Nat} {a b : Loop} (hr : Loop.Runs env u.macros n a b)
    (hA : ∀ s, u.Authored s → A s) (h : a.Traced u A env.options.maxExpansionDepth muted) :
    b.Traced u A env.options.maxExpansionDepth muted := by
  induction hr with
  | done => exact h
  | step hs _ ih => exact ih (hs.traced hA h)

theorem Loop.start_traced (h : w.Traced u A limit muted) : (Loop.start w).Traced u A limit muted :=
  ⟨h, fun _ hid => absurd hid List.not_mem_nil⟩

theorem Loop.runs_expand (env : Env) (macros : MacroLibrary) (w : Working) :
    ∃ steps last, Loop.Runs env macros steps (Loop.start w) last ∧ last.state = w.expand env macros := by
  obtain ⟨steps, last, hr, -, hlast, -⟩ := Loop.exists_last env macros w
  exact ⟨steps, last, hr, hlast⟩

theorem expand_traced (h : w.Traced u A env.options.maxExpansionDepth muted)
    (hA : ∀ s, u.Authored s → A s) :
    (w.expand env u.macros).work.Traced u A env.options.maxExpansionDepth muted := by
  obtain ⟨steps, last, hr, hlast⟩ := Loop.runs_expand env u.macros w
  exact hlast ▸ (hr.traced hA (Loop.start_traced h)).work

end Expansion

end VisualScript
