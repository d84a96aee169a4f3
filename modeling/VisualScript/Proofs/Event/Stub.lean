import VisualScript.Proofs.Event.Consolidation
import VisualScript.Proofs.Compile.Success

namespace VisualScript

/-- Only one order of the first numbers has none of them behind its successor. -/
theorem eq_range_of_pairwise {n : Nat} {l : List Nat} (hperm : l.Perm (List.range n))
    (h : l.Pairwise fun x y => x ≠ y + 1) :
    l = List.range n := by
  induction n generalizing l with
  | zero => exact hperm.eq_nil
  | succ n ih =>
      obtain ⟨a, b, rfl⟩ :=
        List.append_of_mem (hperm.mem_iff.mpr (List.mem_range.mpr (Nat.lt_succ_self n)))
      have hnodup := hperm.nodup_iff.mpr List.nodup_range
      obtain ⟨ha, hb, hab⟩ := List.pairwise_append.mp h
      -- Whatever stood behind the last number, its successors would, too.
      have hnone (d y : Nat) (hd : n = y + d) : y ∉ b := by
        induction d generalizing y with
        | zero =>
            intro hy
            obtain rfl : n = y := hd
            exact (List.nodup_cons.mp (List.nodup_append.mp hnodup).2.1).1 hy
        | succ d ihd =>
            intro hy
            have hsucc : y + 1 ∈ a ++ n :: b := hperm.mem_iff.mpr (List.mem_range.mpr (by omega))
            rcases List.mem_append.mp hsucc with hs | hs
            · exact hab (y + 1) hs y (List.mem_cons_of_mem n hy) rfl
            · rcases List.mem_cons.mp hs with hs | hs
              · exact (List.pairwise_cons.mp hb).1 y hy hs.symm
              · exact ihd (y + 1) (by omega) hs
      obtain rfl : b = [] := by
        refine List.eq_nil_iff_forall_not_mem.mpr fun y hy => ?_
        have hlt : y < n + 1 :=
          List.mem_range.mp (hperm.mem_iff.mp (List.mem_append_right _ (List.mem_cons_of_mem n hy)))
        exact hnone (n - y) y (by omega) hy
      rw [List.range_succ] at hperm ⊢
      rw [ih (List.perm_append_right_iff [n] |>.mp hperm) ha]

namespace EventInfo

variable {g : ScriptGraph} {l : PortRef × PortRef} {ls : List (PortRef × PortRef)} {n : ScriptNode}
    {k : NodeId} {w : Working}

/-- A pair of ports that may be linked. -/
structure Fits (g : ScriptGraph) (l : PortRef × PortRef) (role : Role) : Prop where
  source : (g.port? l.1).any (Port.is role .output) = true
  target : (g.port? l.2).any (Port.is role .input) = true
  apart : l.1.node ≠ l.2.node

theorem link_slots (g : ScriptGraph) (l : PortRef × PortRef) : (link g l).slots = g.slots := by
  rw [link]
  split
  · next hc => exact Graph.connect_slots hc
  · rfl

theorem foldl_link_slots (g : ScriptGraph) (ls : List (PortRef × PortRef)) :
    (ls.foldl link g).slots = g.slots := by
  induction ls generalizing g with
  | nil => rfl
  | cons l rest ih => rw [List.foldl_cons, ih, link_slots]

theorem mem_links_link (hout : ∀ p, g.port? l.1 = some p → p.direction = .output) {x : Link}
    (hx : x ∈ (link g l).links) :
    x ∈ g.links ∨ (x.source, x.target) = l ∧ (g.port? x.source).any (fun p => p.role = x.role) = true := by
  unfold link at hx
  split at hx
  · next hc =>
      obtain ⟨source, target, role, hcheck, ⟨_, _, rfl⟩ | ⟨_, rfl⟩⟩ := Graph.connect_cases hc
      · exact Or.inl hx
      · obtain ⟨ps, pt, hs, ht, _, htd, hsr, _, _, ⟨h1, h2⟩ | ⟨h1, h2⟩⟩ := Graph.checkLink_cases hcheck
        · rcases List.mem_cons.mp hx with rfl | hx
          · exact Or.inr ⟨Prod.ext h1 h2, by simp [hs, hsr]⟩
          · exact Or.inl hx
        · rw [h2] at ht
          rw [hout pt ht] at htd
          cases htd
  · exact Or.inl hx

theorem mem_links_foldl_link (hout : ∀ l ∈ ls, ∀ p, g.port? l.1 = some p → p.direction = .output)
    {x : Link} (hx : x ∈ (ls.foldl link g).links) :
    x ∈ g.links ∨ (x.source, x.target) ∈ ls ∧ (g.port? x.source).any (fun p => p.role = x.role) =
      true := by
  induction ls generalizing g with
  | nil => exact Or.inl hx
  | cons l rest ih =>
      obtain ⟨hl, hrest⟩ := List.forall_mem_cons.mp hout
      have hport (p : PortRef) : (link g l).port? p = g.port? p := Graph.port?_congr (link_slots g l) p
      rcases ih (g := link g l) (fun l' hl' p hp => hrest l' hl' p (hport l'.1 ▸ hp)) hx with
        hx | ⟨hmem, hrole⟩
      · rcases mem_links_link hl hx with hx | ⟨he, hrole⟩
        · exact Or.inl hx
        · exact Or.inr ⟨he ▸ List.mem_cons_self, hrole⟩
      · exact Or.inr ⟨List.mem_cons_of_mem l hmem, hport x.source ▸ hrole⟩

theorem linked_link (hg : g.Tidy) {role : Role} (h : Fits g l role) (a b : PortRef) :
    (link g l).Linked a b ↔ (a, b) = l ∨ g.Linked a b := by
  have hsource := h.source
  have htarget := h.target
  rw [Option.any_eq_true] at hsource htarget
  obtain ⟨ps, hs, hsis⟩ := hsource
  obtain ⟨pt, ht, htis⟩ := htarget
  simp only [Port.is, Bool.and_eq_true, decide_eq_true_eq] at hsis htis
  have hcheck : g.checkLink l.1 l.2 = .ok (l.1, l.2, ps.role) := by
    simp [Graph.checkLink, hs, ht, h.apart, hsis, htis]
  cases hc : g.connect l.1 l.2 with
  | error e =>
      rw [Graph.connect, hcheck] at hc
      simp only at hc
      split at hc <;> cases hc
  | ok r =>
      obtain ⟨source, target, role', hcheck', hlinked⟩ := Graph.connect_linked hg hc
      cases hcheck.symm.trans hcheck'
      have hlink : link g l = r.2 := by simp only [link, hc]
      rw [hlink, hlinked, Prod.ext_iff]

theorem linked_foldl_link (hg : g.Tidy) {role : Role} (hl : l ∈ ls) (h : Fits g l role) :
    (ls.foldl link g).Linked l.1 l.2 := by
  have hkeep (ls : List (PortRef × PortRef)) (g : ScriptGraph) (hg : g.Tidy) {a b : PortRef}
      (hab : g.Linked a b) :
      (ls.foldl link g).Linked a b := by
    induction ls generalizing g with
    | nil => exact hab
    | cons l rest ih =>
        refine ih _ (endures_link (.refl hg) l).tidy ?_
        rw [link]
        split
        · next hc =>
            obtain ⟨_, _, _, _, hlinked⟩ := Graph.connect_linked hg hc
            exact (hlinked a b).mpr (Or.inr hab)
        · exact hab
  induction ls generalizing g with
  | nil => cases hl
  | cons l' rest ih =>
      rcases List.mem_cons.mp hl with rfl | hl
      · exact hkeep rest _ (endures_link (.refl hg) l).tidy ((linked_link hg h l.1 l.2).mpr (Or.inl rfl))
      · have hport (p : PortRef) : (link g l').port? p = g.port? p := Graph.port?_congr (link_slots g l') p
        exact ih (endures_link (.refl hg) l').tidy hl ⟨hport l.1 ▸ h.source, hport l.2 ▸ h.target, h.apart⟩

variable (info : EventInfo)

def stubNodes : List ScriptNode :=
  [info.stubEntry, { info.stubAssign with order := 1 },
    { ScriptNode.callEventGraph info.spec.name with order := 2 },
    { ScriptNode.result with order := 3 }]

def stubBase : ScriptGraph :=
  [info.stubEntry, info.stubAssign, ScriptNode.callEventGraph info.spec.name, ScriptNode.result].foldl
    (fun g n => (g.addNode n).2) { name := info.spec.name }

theorem stub_graph : info.stub.graph = info.stubLinks.foldl link info.stubBase := by
  simp only [stub]
  rfl

theorem stubBase_slots : info.stubBase.slots = info.stubNodes.map some := rfl

theorem tidy_stubBase : info.stubBase.Tidy :=
  List.foldlRecOn (motive := fun g : ScriptGraph => g.Tidy) _ _ (Graph.tidy_empty _) fun _ hg n _ =>
    hg.addNode n

theorem node?_stubBase (k : NodeId) : info.stubBase.node? k = info.stubNodes[k]? := by
  rw [Graph.node?, stubBase_slots, List.getElem?_map]
  cases info.stubNodes[k]? <;> rfl

theorem node?_stub (k : NodeId) : info.stub.graph.node? k = info.stubNodes[k]? := by
  have hslots : info.stub.graph.slots = info.stubBase.slots := by rw [stub_graph, foldl_link_slots]
  rw [Graph.node?_congr hslots, node?_stubBase]

theorem lt_of_node?_stub (h : info.stub.graph.node? k = some n) : k < 4 := by
  rw [node?_stub] at h
  exact (List.getElem?_eq_some_iff.mp h).1

theorem stubNode_cases (h : info.stub.graph.node? k = some n) :
    n = info.stubEntry ∨ n = { info.stubAssign with order := 1 } ∨
      n = { ScriptNode.callEventGraph info.spec.name with order := 2 } ∨
        n = { ScriptNode.result with order := 3 } := by
  rw [node?_stub] at h
  simpa [stubNodes] using List.mem_of_getElem? h

theorem exists_stubNode {k : Nat} (hk : k < 4) : ∃ n, info.stub.graph.node? k = some n :=
  ⟨_, (info.node?_stub k).trans (List.getElem?_eq_getElem (show k < info.stubNodes.length from hk))⟩

theorem next_of_stubLink {l : PortRef × PortRef} (h : l ∈ info.stubLinks) : l.2.node = l.1.node + 1 := by
  rcases List.mem_append.mp h with h | h
  · rcases List.mem_cons.mp h with rfl | h
    · rfl
    · rcases List.mem_cons.mp h with rfl | h
      · rfl
      · cases List.mem_singleton.mp h
        rfl
  · obtain ⟨i, _, rfl⟩ := List.mem_map.mp h
    rfl

theorem output_of_stubLink {l : PortRef × PortRef} (h : l ∈ info.stubLinks) {p : Port}
    (hp : info.stubBase.port? l.1 = some p) :
    p.direction = .output := by
  have hentry (i : UInt16) (hp : info.stubBase.port? ⟨0, i⟩ = some p) : p.direction = .output := by
    rw [Graph.port?, node?_stubBase] at hp
    rcases List.mem_cons.mp (List.mem_of_getElem? hp) with rfl | hmem
    · rfl
    · obtain ⟨q, _, rfl⟩ := List.mem_map.mp hmem
      rfl
  rcases List.mem_append.mp h with h | h
  · rcases List.mem_cons.mp h with rfl | h
    · exact hentry 0 hp
    · rcases List.mem_cons.mp h with rfl | h
      · cases hp
        rfl
      · cases List.mem_singleton.mp h
        cases hp
        rfl
  · obtain ⟨i, _, rfl⟩ := List.mem_map.mp h
    exact hentry _ hp

theorem mem_stub_links {x : Link} (hx : x ∈ info.stub.graph.links) :
    (x.source, x.target) ∈ info.stubLinks ∧
      (info.stubBase.port? x.source).any (fun p => p.role = x.role) = true := by
  rw [stub_graph] at hx
  rcases mem_links_foldl_link (fun l hl p hp => info.output_of_stubLink hl hp) hx with hx | hx
  · cases hx
  · exact hx

theorem fits_control :
    Fits info.stubBase (⟨0, 0⟩, ⟨1, 0⟩) .control ∧ Fits info.stubBase (⟨1, 1⟩, ⟨2, 0⟩) .control ∧
    Fits info.stubBase (⟨2, 1⟩, ⟨3, 0⟩) .control :=
  ⟨⟨rfl, rfl, Nat.zero_ne_one⟩, ⟨rfl, rfl, Nat.succ_ne_succ_iff.mpr Nat.zero_ne_one⟩,
    ⟨rfl, rfl, by decide⟩⟩

/-- The control output of each node but the last. -/
def stubExit : Nat → PortRef
  | 0 => ⟨0, 0⟩
  | k => ⟨k, 1⟩

theorem stub_linked {k : Nat} (hk : k < 3) : info.stub.graph.Linked (stubExit k) ⟨k + 1, 0⟩ := by
  obtain ⟨h0, h1, h2⟩ := info.fits_control
  have hmem {l : PortRef × PortRef}
      (h : l ∈ [((⟨0, 0⟩, ⟨1, 0⟩) : PortRef × PortRef), (⟨1, 1⟩, ⟨2, 0⟩), (⟨2, 1⟩, ⟨3, 0⟩)]) :
      l ∈ info.stubLinks := List.mem_append_left _ h
  rw [stub_graph]
  obtain rfl | rfl | rfl : k = 0 ∨ k = 1 ∨ k = 2 := by omega
  · exact linked_foldl_link info.tidy_stubBase (hmem (by decide)) h0
  · exact linked_foldl_link info.tidy_stubBase (hmem (by decide)) h1
  · exact linked_foldl_link info.tidy_stubBase (hmem (by decide)) h2

theorem stub_successor {k : Nat} (hk : k < 3) : k + 1 ∈ info.stub.graph.successors k .control := by
  obtain ⟨x, hx, hsource, htarget⟩ := info.stub_linked hk
  obtain ⟨_, hrole⟩ := info.mem_stub_links hx
  have hnode : x.source.node = k := by
    rw [hsource]
    cases k <;> rfl
  have hcontrol : (info.stubBase.port? (stubExit k)).map Port.role = some .control := by
    obtain rfl | rfl | rfl : k = 0 ∨ k = 1 ∨ k = 2 := by omega
    all_goals rfl
  obtain ⟨p, hp, hcontrol⟩ := Option.map_eq_some_iff.mp hcontrol
  rw [hsource, hp] at hrole
  refine info.endures_stub.tidy.mem_successors.mpr ⟨?_, x, hx, ?_, hnode, congrArg PortRef.node htarget⟩
  · exact Graph.contains_iff.mpr (info.exists_stubNode (Nat.lt_succ_of_lt hk))
  · exact (of_decide_eq_true hrole).symm.trans hcontrol

theorem stub_live (env : Env) (h : info.stub.graph.node? k = some n) :
    (info.stub.graph.liveSet (Registry.standard.policy env.options)
      (info.stub.graph.roots (Registry.standard.policy env.options)
        env.options.includePotentialRoots)).contains k = true := by
  have hid (k : Nat) (hk : k < 4) : k ∈ info.stub.graph.nodeIds := by
    obtain ⟨n, hn⟩ := info.exists_stubNode hk
    exact List.mem_map.mpr ⟨(k, n), Graph.mem_nodes.mpr hn, rfl⟩
  have hentry : info.stub.graph.node? 0 = some info.stubEntry := info.node?_stub 0
  have hroot : 0 ∈ info.stub.graph.roots (Registry.standard.policy env.options)
    env.options.includePotentialRoots :=
    Graph.mem_findNodes.mpr ⟨_, hentry, rfl⟩
  have hreached (k : Nat) (hk : k < 4) :
      k ∈ closure info.stub.graph.nodeIds (fun id => info.stub.graph.successors id .control)
      (info.stub.graph.roots (Registry.standard.policy env.options)
        env.options.includePotentialRoots) [] := by
    induction k with
    | zero => exact subset_closure _ _ (Or.inr ⟨hroot, hid 0 hk⟩)
    | succ k ih =>
        refine closure_next (fun _ hx => absurd hx List.not_mem_nil) (ih (by omega))
          (info.stub_successor ?_) (hid _ hk)
        omega
  have hcontrol := hreached k (info.lt_of_node?_stub h)
  rw [LiveSet.contains, Bool.or_assoc]
  exact Bool.or_eq_true_iff.mpr (Or.inl (decide_eq_true hcontrol))

theorem stub_plain (h : info.stub.graph.node? k = some n) :
    n.kind.isInstance = false ∧ n.kind.isTunnel = false ∧ Registry.standard.isPure n = false := by
  rcases info.stubNode_cases h with rfl | rfl | rfl | rfl <;> exact ⟨rfl, rfl, rfl⟩

theorem pruned_stub (hw : w.graph = info.stub.graph) (env : Env) (macros : MacroLibrary) :
    (w.pruned .standard env macros).graph = info.stub.graph := by
  have hexpand : (w.expand env macros).work = w := by
    refine Working.expand_of_plain fun k n hn => ?_
    obtain ⟨hi, ht, _⟩ := info.stub_plain (hw ▸ hn)
    exact ⟨hi, ht⟩
  rw [Working.pruned, hexpand, Working.prune_of_live, hw]
  intro k n hn
  rw [Working.roots, hw]
  exact info.stub_live env (hw ▸ hn)

theorem schedule_stub (hw : w.graph = info.stub.graph) {s : Schedule} (hs : w.schedule .standard = .ok s) :
    s.linear = [0, 1, 2, 3] ∧ ∀ k, s.prelude k = [] := by
  rw [Working.schedule, hw] at hs
  have hmem (k : NodeId) : k ∈ s.linear ↔ k < 4 := by
    rw [Graph.mem_linear hs]
    constructor
    · rintro ⟨n, hn, _⟩
      exact info.lt_of_node?_stub hn
    · intro hk
      obtain ⟨n, hn⟩ := info.exists_stubNode hk
      exact ⟨n, hn, (info.stub_plain hn).2.2⟩
  constructor
  · refine eq_range_of_pairwise (n := 4) ?_ ?_
    · refine (List.perm_ext_iff_of_nodup (Graph.schedule_nodup hs) List.nodup_range).mpr fun k => ?_
      rw [hmem, List.mem_range]
    · refine ((Graph.schedule_linear hs).1.forward.pairwise (Graph.schedule_nodup hs)).imp_of_mem
        fun {x y} hx _ hnot he => hnot ?_
      rw [he] at hx ⊢
      exact info.stub_successor (Nat.lt_of_succ_lt_succ ((hmem _).mp hx))
  · intro k
    refine List.eq_nil_iff_forall_not_mem.mpr fun k' hk' => ?_
    obtain ⟨n, hn, hp⟩ := Graph.mem_prelude hs hk'
    rw [(info.stub_plain hn).2.2] at hp
    cases hp

theorem follow_stub (hw : w.graph = info.stub.graph) {k : Nat} (hk : k < 3) :
    w.follow k "then" = .node (k + 1) := by
  have hfind : w.graph.findPort? k "then" .output = some (stubExit k) := by
    rw [hw, Graph.findPort?, node?_stub]
    obtain rfl | rfl | rfl : k = 0 ∨ k = 1 ∨ k = 2 := by omega
    all_goals rfl
  obtain ⟨p, hp, hd⟩ : ∃ p, info.stub.graph.port? (stubExit k) = some p ∧ p.direction = .output := by
    rw [Graph.port?, node?_stub]
    obtain rfl | rfl | rfl : k = 0 ∨ k = 1 ∨ k = 2 := by omega
    all_goals exact ⟨_, rfl, rfl⟩
  have hmem (t : PortRef) : t ∈ info.stub.graph.farEnds (stubExit k) ↔
    info.stub.graph.Linked (stubExit k) t :=
    Graph.mem_farEnds_output info.endures_stub.tidy.unthreaded hp hd
  rw [Working.follow, hfind, Option.bind_some, hw]
  cases hfar : (info.stub.graph.farEnds (stubExit k)).head? with
  | none =>
      have hlinked := (hmem _).mpr (info.stub_linked hk)
      rw [List.head?_eq_none_iff.mp hfar] at hlinked
      cases hlinked
  | some far =>
      obtain ⟨x, hx, hsource, htarget⟩ := (hmem far).mp (List.mem_of_head? hfar)
      have hnext := info.next_of_stubLink (info.mem_stub_links hx).1
      have hnode : (stubExit k).node = k := by cases k <;> rfl
      rw [hsource, htarget, hnode] at hnext
      exact congrArg JumpTarget.node hnext

end EventInfo

end VisualScript
