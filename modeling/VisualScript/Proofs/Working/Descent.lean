import VisualScript.Proofs.Working.Binding
import VisualScript.Proofs.Working.Retention

namespace VisualScript

namespace Graph

variable {g₀ g g' : ScriptGraph} {e : NodeId}

/-- A graph that came out of `g₀`: the entries of `g₀` are still there, new nodes come behind those of
`g₀`, and no link leads to the entry `e`, which has outputs only. -/
structure Descends (g₀ : ScriptGraph) (e : NodeId) (g : ScriptGraph) :
    Prop extends g₀.Retains NodeKind.isEntry g where
  head : ∃ n₀, g₀.node? e = some n₀ ∧ n₀.kind.isEntry = true ∧ ∀ p ∈ n₀.ports, p.direction = .output
  started : 0 < g₀.nextOrder
  order : g₀.nextOrder ≤ g.nextOrder
  older : ∀ {k : NodeId} {n : ScriptNode}, g.node? k = some n → n.order < g₀.nextOrder →
    ∃ n₀, g₀.node? k = some n₀ ∧ n.outline = n₀.outline
  shut : ∀ l ∈ g.links, l.target.node ≠ e

theorem Descends.refl (htidy : g.Tidy) (hstarted : 0 < g.nextOrder)
    (hhead : ∃ n, g.node? e = some n ∧ n.kind.isEntry = true ∧ ∀ p ∈ n.ports, p.direction = .output)
    (hshut : ∀ l ∈ g.links, l.target.node ≠ e) : g.Descends e g :=
  ⟨.refl _ htidy, hhead, hstarted, Nat.le_refl _, fun hn _ => ⟨_, hn, rfl⟩, hshut⟩

theorem Descends.of_outline (h : g₀.Descends e g) (htidy : g'.Tidy) (hsame : g'.SameOutline g)
    (horder : g'.nextOrder = g.nextOrder) (hshut : ∀ l ∈ g'.links, l.target.node ≠ e) :
    g₀.Descends e g' where
  toRetains := h.toRetains.of_outline htidy hsame
  head := h.head
  started := h.started
  order := horder ▸ h.order
  older {k n} hn hlt := by
    obtain ⟨n', hn', hout⟩ := hsame.symm.node? hn
    obtain ⟨n₀, hn₀, hout₀⟩ := h.older hn' (Node.order_eq_of_outline hout ▸ hlt)
    exact ⟨n₀, hn₀, hout.symm.trans hout₀⟩
  shut := hshut

theorem Descends.ne_of_input (h : g₀.Descends e g) {p : PortRef} {port : Port} (hp : g.port? p = some port)
    (hd : port.direction = .input) : p.node ≠ e := by
  intro he
  obtain ⟨n₀, hn₀, hk, hports⟩ := h.head
  obtain ⟨n, hn, hout⟩ := h.kept hn₀ hk
  rw [port?, he, hn, Option.bind_some] at hp
  have hport := congrArg (fun n => n.port? p.index) hout
  simp only [Node.port?_outline, hp, Option.map_some] at hport
  obtain ⟨port₀, hport₀, heq⟩ := Option.map_eq_some_iff.mp hport.symm
  have hdir := congrArg Port.direction heq
  rw [hports port₀ (List.mem_of_getElem? hport₀), hd] at hdir
  cases hdir

variable (h : g₀.Descends e g)
include h

theorem Descends.connect {a b : PortRef} {l : LinkId} (hc : g.connect a b = .ok (l, g')) :
    g₀.Descends e g' := by
  refine h.of_outline (h.tidy.connect hc) (.ofSlots (connect_slots hc)) (rewired_connect hc).nextOrder ?_
  obtain ⟨source, target, role, hcheck, ⟨_, _, rfl⟩ | ⟨_, rfl⟩⟩ := connect_cases hc
  · exact h.shut
  · obtain ⟨_, pt, _, ht, _, hd, _⟩ := checkLink_cases hcheck
    exact List.forall_mem_cons.mpr ⟨h.ne_of_input ht hd, h.shut⟩

theorem Descends.disconnect (p : PortRef) : g₀.Descends e (g.disconnect p) := by
  refine h.of_outline (h.tidy.disconnect p) (.ofSlots (disconnect_slots g p))
    (g.rewired_disconnect p).nextOrder fun l hl => ?_
  rw [Graph.disconnect, mem_links_foldl_removeLink] at hl
  exact h.shut l hl.1

theorem Descends.addNode (n : ScriptNode) : g₀.Descends e (g.addNode n).2 := by
  have hstarted := h.started
  have horder := h.order
  have hfresh : g.freshOrder = g.nextOrder := if_neg (by omega)
  refine ⟨h.toRetains.addNode n, h.head, hstarted, ?_, ?_, ?_⟩
  · have hnext : (g.addNode n).2.nextOrder = g.freshOrder + 1 := rfl
    omega
  · intro k m hm hlt
    rw [h.tidy.node?_addNode] at hm
    split at hm
    · cases hm
      simp only [hfresh] at hlt
      omega
    · exact h.older hm hlt
  · rw [h.tidy.addNode_links]
    exact h.shut

theorem Descends.copyNodes (nodes : List (NodeId × ScriptNode)) :
    g₀.Descends e (g.copyNodes nodes).2 := by
  induction nodes generalizing g with
  | nil => exact h
  | cons x rest ih => exact ih (h.addNode x.2)

theorem Descends.merge (other : ScriptGraph) : g₀.Descends e (g.merge other).2 := by
  have hcopied := h.copyNodes other.nodes
  refine hcopied.of_outline (h.tidy.merge other) (.ofSlots (copyLinkList_slots ..))
    (rewired_copyLinkList ..).nextOrder fun l hl he => ?_
  obtain ⟨n₀, hn₀, hk, _⟩ := h.head
  rcases h.tidy.linked_merge other ⟨l, hl, rfl, rfl⟩ with ⟨l', hl', _, ht⟩ | ⟨_, ht⟩
  · exact h.shut l' hl' (ht ▸ he)
  · exact h.not_copy other hn₀ hk (he ▸ ht)

theorem Descends.removeNode {k : NodeId}
    (hk : ∀ n₀, g₀.node? k = some n₀ → n₀.kind.isEntry = false) : g₀.Descends e (g.removeNode k) := by
  refine ⟨h.toRetains.removeNode hk, h.head, h.started, ?_, ?_, ?_⟩
  · have horder : (g.removeNode k).nextOrder = g.nextOrder := by
      rw [Graph.removeNode, h.tidy.unthreaded]
      split <;> rfl
    exact horder ▸ h.order
  · intro i n hn
    rw [node?_removeNode] at hn
    split at hn
    · cases hn
    · exact h.older hn
  · intro l hl
    exact h.shut l ((h.tidy.mem_links_removeNode k).mp hl).1

end Graph

namespace Expansion

variable {g₀ : ScriptGraph} {e : NodeId}

theorem nextOrder_resolvePorts (resolved : Option PinType) (ids : List NodeId) (g : ScriptGraph) :
    (resolvePorts resolved ids g).nextOrder = g.nextOrder :=
  resolvePorts_induction (P := fun g' => g'.nextOrder = g.nextOrder) resolved rfl fun _ _ _ _ _ h => h

theorem descends_invariant (g₀ : ScriptGraph) (e : NodeId) :
    Invariant (fun w => g₀.Descends e w.graph) fun k => ∀ n₀, g₀.node? k = some n₀ →
      n₀.kind.isEntry = false where
  edit {site w w'} h hw := by
    cases h with
    | report | inspect => exact hw
    | link a b l g h => exact hw.connect h
    | unlink p => exact hw.disconnect p
    | setDefault p value =>
        exact hw.of_outline (hw.tidy.modifyNode _ _) (w.graph.outline_setDefault p value)
          rfl hw.shut
    | synthesize n => exact hw.addNode n
  enter {w} id body resolved hw := by
    have hmerged := hw.merge body
    obtain ⟨htidy, hlinks⟩ := resolvePorts_kept resolved (w.graph.merge body).1.copies hmerged.tidy
    refine hmerged.of_outline htidy (outline_resolvePorts resolved _ _) (nextOrder_resolvePorts ..)
      fun l hl => ?_
    exact hmerged.shut l (hlinks ▸ hl)
  remove hw hk := hw.removeNode hk
  copies {w body k} hw hk n₀ hn₀ := Bool.eq_false_iff.mpr fun hentry => hw.not_copy body hn₀ hentry hk
  expanded hw hn hk := hw.not_plain hn (isEntry_of_expanded hk)

theorem kept_invariant (w : Working) :
    Invariant (fun w' => w'.terms = w.terms ∧ w'.entry = w.entry) fun _ => True where
  edit h hw := by cases h <;> exact hw
  enter _ _ _ hw := hw
  remove hw _ := hw
  copies _ _ := trivial
  expanded _ _ _ := trivial

end Expansion

namespace Working

variable {w : Working} {g₀ : ScriptGraph} {e : NodeId} {env : Env} {macros : MacroLibrary}

theorem pruned_descends (h : g₀.Descends e w.graph) :
    g₀.Descends e (w.pruned .standard env macros).graph := by
  have hexpand : g₀.Descends e (w.expand env macros).work.graph :=
    (Expansion.descends_invariant g₀ e).expand h
  rw [pruned]
  generalize (w.expand env macros).work = x at hexpand
  refine (Expansion.descends_invariant g₀ e).removeNodes ?_ fun k hk n₀ hn₀ => ?_
  · rw [(noted_warn _ _).graph]
    exact hexpand
  by_contra hentry
  obtain ⟨n, hn, hout⟩ := hexpand.kept hn₀ (Bool.not_eq_false _ ▸ hentry)
  have hroot : (Registry.standard.policy env.options).isRoot n = true := by
    simp only [Registry.policy, Registry.isRoot, Node.kind_eq_of_outline hout,
      Bool.not_eq_false _ ▸ hentry, Bool.true_or]
  obtain ⟨⟨k, m⟩, hdead, rfl⟩ := List.mem_map.mp hk
  have hdead := (List.mem_filter.mp hdead).2
  rw [roots] at hdead
  simp [live_of_root env.options.includePotentialRoots hn hroot] at hdead

theorem pruned_kept (w : Working) (env : Env) (macros : MacroLibrary) :
    (w.pruned .standard env macros).terms = w.terms ∧ (w.pruned .standard env macros).entry = w.entry := by
  have hexpand : (w.expand env macros).work.terms = w.terms ∧ (w.expand env macros).work.entry = w.entry :=
    (Expansion.kept_invariant w).expand ⟨rfl, rfl⟩
  rw [pruned]
  generalize (w.expand env macros).work = x at hexpand
  refine (Expansion.kept_invariant w).removeNodes ?_ fun _ _ => trivial
  exact ⟨(noted_warn _ _).terms.trans hexpand.1, (noted_warn _ _).entry.trans hexpand.2⟩

theorem expand_of_plain
    (h : ∀ k n, w.graph.node? k = some n → n.kind.isInstance = false ∧ n.kind.isTunnel = false) :
    (w.expand env macros).work = w := by
  have hnone (p : ScriptNode → Bool) (hp : ∀ k n, w.graph.node? k = some n → p n = false) :
      w.graph.findNodes p = [] := by
    refine List.eq_nil_iff_forall_not_mem.mpr fun k hk => ?_
    obtain ⟨n, hn, hpn⟩ := Graph.mem_findNodes.mp hk
    rw [hp k n hn] at hpn
    cases hpn
  have hinstances := hnone (fun n => n.kind.isInstance) fun k n hn => (h k n hn).1
  have htunnels := hnone (fun n => n.kind.isTunnel) fun k n hn => (h k n hn).2
  rw [expand, Expansion.rounds, hinstances, htunnels]
  rfl

theorem prune_eq_of_live {r : Registry} {roots : List NodeId}
    (h : ∀ k n, w.graph.node? k = some n →
      (w.graph.liveSet (r.policy env.options) roots).contains k = true) :
    (w.prune r env roots).2 =
      { w with crashed := w.crashed || w.graph.liveStrays (r.policy env.options) roots } := by
  have hdead : (w.graph.nodes.filter fun n =>
      !(w.graph.liveSet (r.policy env.options) roots).contains n.1) = [] := by
    refine List.filter_eq_nil_iff.mpr fun x hx => ?_
    rw [h x.1 x.2 (Graph.mem_nodes.mp hx)]
    exact Bool.false_ne_true
  simp only [prune, PruneReport.ofLive, hdead]
  rfl

theorem prune_of_live {r : Registry} {roots : List NodeId}
    (h : ∀ k n, w.graph.node? k = some n →
      (w.graph.liveSet (r.policy env.options) roots).contains k = true) :
    (w.prune r env roots).2.graph = w.graph := by
  rw [prune_eq_of_live h]

end Working

end VisualScript
