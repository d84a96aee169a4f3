import VisualScript.Proofs.Expansion.Wildcards
import VisualScript.Proofs.Graph.Counting

namespace VisualScript

namespace Expansion

variable {site : NodeId} {env : Env} {macros : MacroLibrary} {w : Working} {x y z : Expansion}

theorem nodeCount_removeNodes {ids : List NodeId} (hids : ids.Nodup)
    (h : ∀ k ∈ ids, w.graph.contains k = true) :
    (removeNodes w ids).graph.nodeCount + ids.length = w.graph.nodeCount := by
  induction ids generalizing w with
  | nil => rfl
  | cons id rest ih =>
      obtain ⟨hid, hrest⟩ := List.nodup_cons.mp hids
      have hleft : ∀ k ∈ rest, (w.removeNode id).graph.contains k = true := fun k hk => by
        have hne : k ≠ id := fun he => hid (he ▸ hk)
        rw [Graph.contains, Working.removeNode, Graph.node?_removeNode, if_neg hne]
        exact h k (List.mem_cons_of_mem _ hk)
      have hcount : (w.removeNode id).graph.nodeCount + 1 = w.graph.nodeCount :=
        Graph.nodeCount_removeNode (h id List.mem_cons_self)
      rw [List.length_cons, ← Nat.add_assoc, ← hcount]
      exact congrArg (· + 1) (ih hrest hleft)

theorem nodeCount_resolvePorts (resolved : Option PinType) (ids : List NodeId) (g : ScriptGraph) :
    (resolvePorts resolved ids g).nodeCount = g.nodeCount :=
  resolvePorts_induction (P := fun g' => g'.nodeCount = g.nodeCount) resolved rfl fun g' id _ f _ h =>
    (g'.nodeCount_modifyNode id f).trans h

def size (x : Expansion) : Nat := x.work.graph.nodeCount

/-- The function has got so many nodes more, all of them synthesized. -/
structure Gains (x y : Expansion) (count : Nat) : Prop where
  tidy : y.work.graph.Tidy
  size : y.size = x.size + count
  synthesized : y.stats.synthesized = x.stats.synthesized + count

theorem Gains.refl (h : x.work.graph.Tidy) : Gains x x 0 := ⟨h, rfl, rfl⟩

theorem Gains.trans {i j : Nat} (h : Gains x y i) (h' : Gains y z j) : Gains x z (i + j) where
  tidy := h'.tidy
  size := by rw [h'.size, h.size, Nat.add_assoc]
  synthesized := by rw [h'.synthesized, h.synthesized, Nat.add_assoc]

theorem Gains.zero_trans {j : Nat} (h : Gains x y 0) (h' : Gains y z j) :
    Gains x z j := Nat.zero_add j ▸ h.trans h'

theorem Gains.ofSlots (h : y.work.graph.Tidy) (hslots : y.work.graph.slots = x.work.graph.slots)
    (hstats : y.stats = x.stats) :
    Gains x y 0 :=
  ⟨h, Graph.nodeCount_congr hslots, congrArg ExpansionStats.synthesized hstats⟩

theorem rewire_kept (h : w.graph.Tidy) (source sink : PortRef) :
    (rewire w source sink).graph.Tidy ∧ (rewire w source sink).graph.slots = w.graph.slots := by
  unfold rewire
  cases hc : w.graph.connect source sink with
  | error e => exact ⟨h, rfl⟩
  | ok r => exact ⟨h.connect hc, Graph.connect_slots hc⟩

theorem rewireAll_kept (h : w.graph.Tidy) (sources sinks : List PortRef) :
    (rewireAll w sources sinks).graph.Tidy ∧ (rewireAll w sources sinks).graph.slots = w.graph.slots := by
  have hkeeps {α : Type} (f : Working → α → Working)
      (hf : ∀ {v : Working} (a : α), v.graph.Tidy → (f v a).graph.Tidy ∧
        (f v a).graph.slots = v.graph.slots) (l : List α)
      {v : Working} (hv : v.graph.Tidy) : (l.foldl f v).graph.Tidy ∧
        (l.foldl f v).graph.slots = v.graph.slots := by
    induction l generalizing v with
    | nil => exact ⟨hv, rfl⟩
    | cons a rest ih => exact (ih (hf a hv).1).imp id fun hslots => hslots.trans (hf a hv).2
  exact hkeeps _ (fun source hv => hkeeps _ (fun sink hv => rewire_kept hv source sink) sinks hv) sources h

theorem rewire_gains (h : x.work.graph.Tidy) (source sink : PortRef) :
    Gains x (x.onWork fun w => rewire w source sink) 0 :=
  .ofSlots (rewire_kept h source sink).1 (rewire_kept h source sink).2 rfl

theorem rewireAll_gains (h : x.work.graph.Tidy) (sources sinks : List PortRef) :
    Gains x (x.onWork fun w => rewireAll w sources sinks) 0 :=
  .ofSlots (rewireAll_kept h sources sinks).1 (rewireAll_kept h sources sinks).2 rfl

theorem synthesize_gains (h : x.work.graph.Tidy) (n : ScriptNode) : Gains x (x.synthesize n site).2 1 :=
  ⟨h.addNode n, h.nodeCount_addNode n, rfl⟩

theorem setDefaults_gains (h : x.work.graph.Tidy) (sinks : List PortRef) (value : String) :
    Gains x (x.onWork fun w =>
      { w with graph := sinks.foldl (fun g p => g.setDefault p (some value)) w.graph }) 0 := by
  have hsize (g : ScriptGraph) :
      (sinks.foldl (fun g p => g.setDefault p (some value)) g).nodeCount = g.nodeCount := by
    induction sinks generalizing g with
    | nil => rfl
    | cons p rest ih => exact (ih _).trans (g.nodeCount_modifyNode p.node _)
  exact ⟨(setDefaults_kept _ sinks value h).1, hsize _, rfl⟩

theorem wire_gains (h : x.work.graph.Tidy) (role : Role) (sources sinks : List PortRef)
    (boundary : BoundarySite) :
    Gains x (wire env x role sources sinks (some boundary) site)
      (env.options.debugInstrumentation && (role = .control) && !sources.isEmpty &&
        !sinks.isEmpty).toNat := by
  cases role with
  | data =>
      simp only [reduceCtorEq, decide_false, Bool.and_false, Bool.false_and, Bool.toNat_false]
      exact rewireAll_gains h sources sinks
  | control =>
      simp only [wire, decide_true, Bool.and_true]
      split
      · next hmarked =>
          rw [hmarked]
          have hadd : Gains x (x.synthesize (ScriptNode.tunnelBoundary boundary) site).2 1 :=
            synthesize_gains h _
          have hin := rewireAll_gains hadd.tidy sources
            [⟨(x.synthesize (ScriptNode.tunnelBoundary boundary) site).1, 0⟩]
          exact hadd.trans (hin.trans (rewireAll_gains hin.tidy _ sinks))
      · next hplain =>
          rw [Bool.eq_false_iff.mpr hplain]
          exact rewireAll_gains h sources sinks

def crosses (env : Env) (g : ScriptGraph) (up down : PortRef) : Bool :=
  env.options.debugInstrumentation && (g.port? up).any (fun port => port.role = .control) &&
    g.isLinked up && g.isLinked down

theorem isLinked_eq (g : ScriptGraph) (p : PortRef) : g.isLinked p = !(g.farEnds p).isEmpty := by
  rw [Graph.isLinked, Graph.farEnds, List.isEmpty_map]

theorem splice_gains (h : x.work.graph.Tidy) (up down : PortRef) (boundary : BoundarySite) :
    Gains x (splice env x up down (some boundary) site) (crosses env x.work.graph up down).toNat := by
  unfold splice crosses
  cases hp : x.work.graph.port? up with
  | none =>
      simp only [Option.any_none, Bool.and_false, Bool.false_and]
      exact .refl h
  | some port =>
      have hcut : Gains x ((x.inspect up).onWork fun w =>
        { w with graph := (w.graph.disconnect up).disconnect down }) 0 :=
        .ofSlots ((h.disconnect up).disconnect down)
          ((Graph.disconnect_slots _ down).trans (Graph.disconnect_slots _ up)) rfl
      simp only [Option.any_some, isLinked_eq]
      split
      · next hdata =>
          rw [hdata.1]
          simp only [reduceCtorEq, decide_false, Bool.and_false, Bool.false_and]
          cases port.default with
          | none => exact hcut
          | some value => exact hcut.zero_trans (setDefaults_gains hcut.tidy _ value)
      · exact hcut.zero_trans (wire_gains hcut.tidy port.role _ _ boundary)

def marks (env : Env) (s : Site) (g : ScriptGraph) (p : UInt16 × Port) : Bool :=
  (s.pair? g p).any fun r => crosses env g r.1 r.2

theorem joinPort_gains (h : x.work.graph.Tidy) (s : Site) (p : UInt16 × Port) :
    Gains x (joinPort env s x p) (marks env s x.work.graph p).toNat := by
  unfold marks
  cases hp : s.pair? x.work.graph p with
  | none =>
      obtain ⟨hgraph, hstats⟩ := joinPort_none hp
      exact .ofSlots (hgraph ▸ h) (congrArg Graph.slots hgraph) hstats
  | some r =>
      obtain ⟨boundary, hj⟩ := joinPort_some env hp
      rw [hj]
      exact splice_gains h r.1 r.2 boundary

/-- The boundaries that joining the ports of an instance leaves, one after the other. -/
def boundaries (env : Env) (s : Site) : Expansion → List (UInt16 × Port) → Nat
  | _, [] => 0
  | x, p :: rest => (marks env s x.work.graph p).toNat + boundaries env s (joinPort env s x p) rest

theorem foldl_joinPort_gains (h : x.work.graph.Tidy) (s : Site) (ports : List (UInt16 × Port)) :
    Gains x (ports.foldl (joinPort env s) x) (boundaries env s x ports) := by
  induction ports generalizing x with
  | nil => exact .refl h
  | cons p rest ih => exact (joinPort_gains h s p).trans (ih (joinPort_gains h s p).tidy)

theorem feedPort_gains (h : x.work.graph.Tidy) (copy : NodeId) (p : UInt16 × Port) :
    Gains x (feedPort site copy x p) (feeder? p.2).isSome.toNat := by
  rw [feedPort]
  cases feeder? p.2 with
  | none => exact .refl h
  | some f =>
      have hadd : Gains x (x.synthesize f.1 site).2 1 := synthesize_gains h f.1
      exact hadd.trans (rewire_gains hadd.tidy ⟨(x.synthesize f.1 site).1, f.2⟩ ⟨copy, p.1⟩)

def unfed (g : ScriptGraph) (k : NodeId) : Nat :=
  match g.node? k with
  | none => 0
  | some n =>
      if n.kind.isTunnel then 0
      else ((n.portsWhere .data .input).filter fun p => !g.isLinked ⟨k, p.1⟩).countP fun p =>
        (feeder? p.2).isSome

theorem foldl_feedPort_gains (h : x.work.graph.Tidy) (copy : NodeId) (ports : List (UInt16 × Port)) :
    Gains x (ports.foldl (feedPort site copy) x) (ports.countP fun p => (feeder? p.2).isSome) := by
  induction ports generalizing x with
  | nil => exact .refl h
  | cons p rest ih =>
      have hcount : (p :: rest).countP (fun p => (feeder? p.2).isSome) =
          (feeder? p.2).isSome.toNat + rest.countP fun p => (feeder? p.2).isSome := by
        rw [List.countP_cons, Nat.add_comm]
        cases (feeder? p.2).isSome <;> rfl
      rw [hcount]
      exact (feedPort_gains h copy p).trans (ih (feedPort_gains h copy p).tidy)

theorem feedCopy_gains (h : x.work.graph.Tidy) (copy : NodeId) :
    Gains x (feedCopy site x copy) (unfed x.work.graph copy) := by
  rw [feedCopy, unfed]
  cases x.work.graph.node? copy with
  | none => exact .refl h
  | some n =>
      simp only
      split
      · exact .refl h
      · obtain ⟨hgraph, hstats⟩ := foldl_inspect copy (n.portsWhere .data .input) x
        have hlook : Gains x ((n.portsWhere .data .input).foldl (fun x p => x.inspect ⟨copy, p.1⟩) x) 0 :=
          .ofSlots (hgraph ▸ h) (congrArg Graph.slots hgraph) hstats
        exact hlook.zero_trans (foldl_feedPort_gains hlook.tidy copy _)

/-- Nothing about the node is different. -/
structure Untouched (k : NodeId) (g g' : ScriptGraph) : Prop where
  node : g'.node? k = g.node? k
  links : ∀ d, g'.linksAt d k = g.linksAt d k

variable {k : NodeId} {g g' g'' : ScriptGraph}

theorem Untouched.refl (k : NodeId) (g : ScriptGraph) : Untouched k g g := ⟨rfl, fun _ => rfl⟩

theorem Untouched.trans (h : Untouched k g g') (h' : Untouched k g' g'') : Untouched k g g'' :=
  ⟨h'.node.trans h.node, fun d => (h'.links d).trans (h.links d)⟩

theorem Untouched.contains (h : Untouched k g g') :
    g'.contains k = g.contains k := congrArg Option.isSome h.node

theorem Untouched.unfed (h : Untouched k g g') : unfed g' k = unfed g k := by
  have hlinked (i : UInt16) : g'.isLinked ⟨k, i⟩ = g.isLinked ⟨k, i⟩ := by
    simp only [Graph.isLinked, Graph.edges, Graph.port?, h.node, h.links]
  simp only [Expansion.unfed, h.node, hlinked]

theorem rewire_untouched (h : w.graph.Tidy) {source sink : PortRef} (hs : source.node ≠ k)
    (ht : sink.node ≠ k) :
    Untouched k w.graph (rewire w source sink).graph := by
  unfold rewire
  cases hc : w.graph.connect source sink with
  | error e => exact .refl k w.graph
  | ok r =>
      refine ⟨Graph.node?_congr (Graph.connect_slots hc) k, fun d => ?_⟩
      obtain ⟨s, t, role, hcheck, ⟨_, _, he⟩ | ⟨_, he⟩⟩ := Graph.connect_cases hc
      · exact congrArg (fun g => g.linksAt d k) he
      · have hends : s.node ≠ k ∧ t.node ≠ k := by
          obtain ⟨_, _, _, _, _, _, _, _, _, ⟨rfl, rfl⟩ | ⟨rfl, rfl⟩⟩ := Graph.checkLink_cases hcheck
          · exact ⟨hs, ht⟩
          · exact ⟨ht, hs⟩
        have hnear (id : LinkId) : ¬ (Link.near ⟨id, s, t, role⟩ d).node = k := by
          cases d
          · exact hends.2
          · exact hends.1
        simp only [he, Graph.linksAt, Graph.addLink, h.unthreaded, Option.map_none]
        rw [List.filter_cons_of_neg (by simpa using hnear _)]

theorem feedPort_untouched (h : x.work.graph.Tidy) (hk : x.work.graph.contains k = true)
    {copy : NodeId} (hne : copy ≠ k) (p : UInt16 × Port) :
    Untouched k x.work.graph (feedPort site copy x p).work.graph := by
  rw [feedPort]
  cases feeder? p.2 with
  | none => exact .refl k _
  | some f =>
      have hfresh : (x.work.graph.addNode f.1).1 ≠ k := by
        rintro rfl
        rw [Graph.contains, h.addNode_fresh] at hk
        cases hk
      have hadd : Untouched k x.work.graph (x.work.graph.addNode f.1).2 :=
        ⟨(h.node?_addNode f.1 k).trans (if_neg hfresh.symm), fun d => by
          simp only [Graph.linksAt, h.unthreaded, (h.addNode f.1).unthreaded, h.addNode_links]⟩
      exact hadd.trans (rewire_untouched (w := (x.synthesize f.1 site).2.work) (h.addNode f.1) hfresh hne)

theorem feedCopy_untouched (h : x.work.graph.Tidy) (hk : x.work.graph.contains k = true)
    {copy : NodeId} (hne : copy ≠ k) :
    Untouched k x.work.graph (feedCopy site x copy).work.graph := by
  have hfeed (l : List (UInt16 × Port)) {x : Expansion} (h : x.work.graph.Tidy)
      (hk : x.work.graph.contains k = true) :
      Untouched k x.work.graph (l.foldl (feedPort site copy) x).work.graph := by
    induction l generalizing x with
    | nil => exact .refl k _
    | cons p rest ih =>
        have hp : Untouched k x.work.graph (feedPort site copy x p).work.graph :=
          feedPort_untouched h hk hne p
        exact hp.trans (ih (feedPort_gains h copy p).tidy (hp.contains.trans hk))
  unfold feedCopy
  split
  · exact .refl k _
  · split
    · exact .refl k _
    · extract_lets inputs unlinked
      have hgraph := (foldl_inspect copy inputs x).1
      have hall := hfeed unlinked (hgraph.symm ▸ h) (hgraph.symm ▸ hk)
      rwa [hgraph] at hall

theorem foldl_feedCopy_gains (h : x.work.graph.Tidy) {copies : List NodeId} (hcopies : copies.Nodup)
    (hk : ∀ k ∈ copies, x.work.graph.contains k = true) :
    Gains x (copies.foldl (feedCopy site) x) (copies.map (unfed x.work.graph)).sum := by
  induction copies generalizing x with
  | nil => exact .refl h
  | cons copy rest ih =>
      obtain ⟨hcopy, hrest⟩ := List.nodup_cons.mp hcopies
      have huntouched {k : NodeId} (hkr : k ∈ rest) :
        Untouched k x.work.graph (feedCopy site x copy).work.graph :=
        feedCopy_untouched h (hk k (List.mem_cons_of_mem _ hkr)) fun he => hcopy (he ▸ hkr)
      have hsame : rest.map (unfed (feedCopy site x copy).work.graph) = rest.map (unfed x.work.graph) :=
        List.map_congr_left fun k hkr => (huntouched hkr).unfed
      have hfirst : Gains x (feedCopy site x copy) (unfed x.work.graph copy) := feedCopy_gains h copy
      have hothers := ih hfirst.tidy hrest fun k hkr =>
        (huntouched hkr).contains.trans (hk k (List.mem_cons_of_mem _ hkr))
      rw [hsame] at hothers
      exact hfirst.trans hothers

section Turn

variable {id : NodeId} {n : ScriptNode} {body : ScriptGraph} {resolved : Option PinType}

def siteOf (w : Working) (id : NodeId) (n : ScriptNode) (body : ScriptGraph)
    (resolved : Option PinType) : Site :=
  ⟨id, n, body.name, (bodyTunnels w id body resolved .input).head?,
    (bodyTunnels w id body resolved .output).head?⟩

def joined (env : Env) (x : Expansion) (id : NodeId) (n : ScriptNode) (body : ScriptGraph)
    (resolved : Option PinType) : Expansion :=
  n.indexed.foldl (joinPort env (siteOf x.work id n body resolved)) (entered x id body resolved)

/-- The nodes that connecting a body adds: a boundary for each control flow through a tunnel if they
are asked for, and a literal for each array or enum input of a copy that is still unlinked then. -/
def additions (env : Env) (x : Expansion) (id : NodeId) (n : ScriptNode) (body : ScriptGraph)
    (resolved : Option PinType) : Nat :=
  boundaries env (siteOf x.work id n body resolved) (entered x id body resolved) n.indexed +
    ((x.work.graph.merge body).1.copies.map (unfed (joined env x id n body resolved).work.graph)).sum

def tunnelCount (w : Working) (id : NodeId) (body : ScriptGraph) (resolved : Option PinType) : Nat :=
  (bodyTunnels w id body resolved .input).length + (bodyTunnels w id body resolved .output).length

def FewTunnels (w : Working) (id : NodeId) (body : ScriptGraph) (resolved : Option PinType) : Prop :=
  ∀ side, (bodyTunnels w id body resolved side).length ≤ 1

theorem entered_tidy (h : x.work.graph.Tidy) : (entered x id body resolved).work.graph.Tidy :=
  (resolvePorts_kept resolved _ (h.merge body)).1

theorem size_entered (h : x.work.graph.Tidy) :
    (entered x id body resolved).size = x.size + body.nodeCount :=
  (nodeCount_resolvePorts ..).trans (h.nodeCount_merge body)

theorem Holds.contains {k : NodeId} {m : ScriptNode} (h : Holds k m w) : w.graph.contains k = true := by
  obtain ⟨m', hm', _⟩ := h.node
  exact Graph.contains_iff.mpr ⟨m', hm'⟩

variable (resolved) in
theorem exists_holds (h : x.work.graph.Tidy) (hn : x.work.graph.node? id = some n) {k : NodeId}
    (hk : k ∈ (x.work.graph.merge body).1.copies ++ [id]) :
    ∃ m, Holds k m (entered x id body resolved).work := by
  rcases List.mem_append.mp hk with hk | hk
  · obtain ⟨⟨s, k⟩, hpair, rfl⟩ := List.mem_map.mp hk
    obtain ⟨m, order, _, hm⟩ := h.mem_merge hpair
    have hout := outline_resolvePorts resolved (x.work.graph.merge body).1.copies
      (x.work.graph.merge body).2 k
    rw [hm] at hout
    obtain ⟨m', hm', _⟩ := Option.map_eq_some_iff.mp hout
    exact ⟨m', entered_tidy h, m', hm', rfl⟩
  · cases List.mem_singleton.mp hk
    exact ⟨n, resolvedIn_holds ⟨h, n, hn, rfl⟩ id body resolved⟩

variable (body) in
theorem nodup_copies (h : x.work.graph.Tidy) (hn : x.work.graph.node? id = some n) :
    ((x.work.graph.merge body).1.copies ++ [id]).Nodup :=
  (h.nodup_merge body).append (List.nodup_singleton id)
    (List.disjoint_singleton.mpr (not_mem_copies body h hn))

variable (body resolved) in
theorem nodup_tunnels (h : x.work.graph.Tidy) (hn : x.work.graph.node? id = some n) :
    (bodyTunnels x.work id body resolved .input ++ bodyTunnels x.work id body resolved .output ++
      [id]).Nodup := by
  have hcopies := h.nodup_merge body
  have hid {side : TunnelSide} : id ∉ bodyTunnels x.work id body resolved side := fun hm =>
    not_mem_copies body h hn (List.mem_filter.mp hm).1
  refine ((hcopies.filter _).append (hcopies.filter _) ?_).append (List.nodup_singleton id) ?_
  · -- A tunnel is on one side only.
    intro k hin hout
    obtain ⟨m, hm, hin⟩ := mem_tunnelsOf hin
    obtain ⟨m', hm', hout⟩ := mem_tunnelsOf hout
    cases hm.symm.trans hm'
    cases hk : m.kind <;> simp [hk, NodeKind.isTunnelOf] at hin hout
    rw [hin] at hout
    cases hout
  · exact List.disjoint_singleton.mpr fun hm => (List.mem_append.mp hm).elim hid hid

theorem attached_gains (h : x.work.graph.Tidy) (hn : x.work.graph.node? id = some n) :
    Gains (entered x id body resolved)
      (attached env (entered x id body resolved) (siteOf x.work id n body resolved)
        (x.work.graph.merge body).1.copies)
      (additions env x id n body resolved) := by
  have hjoin : Gains (entered x id body resolved) (joined env x id n body resolved) _ :=
    foldl_joinPort_gains (entered_tidy h) (siteOf x.work id n body resolved) n.indexed
  refine hjoin.trans (foldl_feedCopy_gains hjoin.tidy (h.nodup_merge body) fun k hk => ?_)
  obtain ⟨m, hm⟩ := exists_holds resolved h hn (List.mem_append_left [id] hk)
  exact (Edits.holds (Moves.foldl _ (joinPort_moves env _) n.indexed _).2 hm).contains

theorem connectBody_synthesized (env : Env) (x : Expansion) (s : Site) (copies : List NodeId) :
    (connectBody env x s copies).stats.synthesized = (attached env x s copies).stats.synthesized := by
  have hremove (ids : List NodeId) (x : Expansion) : (ids.foldl removeTunnel x).stats.synthesized =
      x.stats.synthesized := by
    induction ids generalizing x with
    | nil => rfl
    | cons id rest ih => exact ih (x.removeTunnel id)
  exact hremove (s.input.toList ++ s.output.toList) (attached env x s copies)

theorem head?_toList {l : List NodeId} (h : l.length ≤ 1) : l.head?.toList = l := by
  cases l with
  | nil => rfl
  | cons a rest => rw [List.length_eq_zero_iff.mp (Nat.le_zero.mp (Nat.le_of_succ_le_succ h))]; rfl

theorem size_connectBody (h : x.work.graph.Tidy) (hn : x.work.graph.node? id = some n)
    (hfew : FewTunnels x.work id body resolved) :
    (connectBody env (entered x id body resolved) (siteOf x.work id n body resolved)
      (x.work.graph.merge body).1.copies).size +
      tunnelCount x.work id body resolved + 1 =
        x.size + body.nodeCount + additions env x id n body resolved := by
  have hmoves := attached_moves env (entered x id body resolved) (siteOf x.work id n body resolved)
    (x.work.graph.merge body).1.copies
  have hstay : ∀ k ∈ bodyTunnels x.work id body resolved .input ++
      bodyTunnels x.work id body resolved .output ++ [id],
      (attached env (entered x id body resolved) (siteOf x.work id n body resolved)
        (x.work.graph.merge body).1.copies).work.graph.contains k = true := by
    intro k hk
    have hcopy : k ∈ (x.work.graph.merge body).1.copies ++ [id] := by
      refine List.mem_append.mpr ((List.mem_append.mp hk).imp_left fun hk => ?_)
      exact (List.mem_append.mp hk).elim (fun hk => (List.mem_filter.mp hk).1) fun hk =>
        (List.mem_filter.mp hk).1
    obtain ⟨m, hm⟩ := exists_holds resolved h hn hcopy
    exact (hmoves.2.holds hm).contains
  have hgone := nodeCount_removeNodes (nodup_tunnels body resolved h hn) hstay
  have hids : (siteOf x.work id n body resolved).input.toList ++
      (siteOf x.work id n body resolved).output.toList ++
      [(siteOf x.work id n body resolved).id] =
      bodyTunnels x.work id body resolved .input ++ bodyTunnels x.work id body resolved .output ++
        [id] := by
    rw [← head?_toList (hfew .input), ← head?_toList (hfew .output)]
    rfl
  calc (connectBody env (entered x id body resolved) (siteOf x.work id n body resolved)
    (x.work.graph.merge body).1.copies).size +
        tunnelCount x.work id body resolved + 1
    _ = (attached env (entered x id body resolved) (siteOf x.work id n body resolved)
      (x.work.graph.merge body).1.copies).size := by
      rw [size, connectBody_work, hids, size, ← hgone, tunnelCount, List.length_append, List.length_append]
      rfl
    _ = x.size + body.nodeCount + additions env x id n body resolved := by
      rw [(attached_gains h hn).size, size_entered h]

theorem size_rejected (h : x.work.graph.Tidy) (hn : x.work.graph.node? id = some n) (issue : Issue) :
    ((entered x id body resolved).onWork fun w => removeNodes (w.report issue (some id))
      ((x.work.graph.merge body).1.copies ++ [id])).size + 1 = x.size := by
  have hstay : ∀ k ∈ (x.work.graph.merge body).1.copies ++ [id],
      ((entered x id body resolved).work.report issue (some id)).graph.contains k = true := by
    intro k hk
    obtain ⟨m, hm⟩ := exists_holds resolved h hn hk
    exact hm.contains
  have hgone := nodeCount_removeNodes (nodup_copies body h hn) hstay
  rw [List.length_append, Graph.length_copies, List.length_singleton] at hgone
  have hsize : ((entered x id body resolved).onWork fun w => removeNodes (w.report issue (some id))
      ((x.work.graph.merge body).1.copies ++ [id])).size + (body.nodeCount + 1) =
        (entered x id body resolved).size := hgone
  rw [size_entered h] at hsize
  omega

theorem fewTunnels_iff : FewTunnels w id body resolved ↔
    ¬ (1 < (bodyTunnels w id body resolved .input).length ∨
      1 < (bodyTunnels w id body resolved .output).length) := by
  rw [not_or, Nat.not_lt, Nat.not_lt]
  refine ⟨fun h => ⟨h .input, h .output⟩, fun h side => ?_⟩
  cases side
  · exact h.1
  · exact h.2

/-- How an instance is done with, and how many nodes are left then. If a body was copied in for it,
there was room for the copy. -/
inductive Turn (env : Env) (macros : MacroLibrary) (x : Expansion) (id : NodeId) (y : Expansion) : Prop
  | missing {n : ScriptNode} (hn : x.work.graph.node? id = some n) (hb : body? macros n.kind = none)
      (left : y.size + 1 = x.size) : Turn env macros x id y
  | rejected {n : ScriptNode} {body : ScriptGraph} {resolved : Option PinType}
      (hn : x.work.graph.node? id = some n)
      (hb : body? macros n.kind = some (body, resolved)) (hmany : ¬ FewTunnels x.work id body resolved)
      (within : x.size + body.nodeCount ≤ env.options.maxExpandedNodes)
        (left : y.size + 1 = x.size) : Turn env macros x id y
  | connected {n : ScriptNode} {body : ScriptGraph} {resolved : Option PinType}
      (hn : x.work.graph.node? id = some n)
      (hb : body? macros n.kind = some (body, resolved)) (hfew : FewTunnels x.work id body resolved)
      (within : x.size + body.nodeCount ≤ env.options.maxExpandedNodes)
      (left : y.size + tunnelCount x.work id body resolved + 1 =
        x.size + body.nodeCount + additions env x id n body resolved)
      (added : y.stats.synthesized = x.stats.synthesized + additions env x id n body resolved) :
        Turn env macros x id y

/-- The instance leaves more nodes than are allowed. Its macro is missing, so that nothing is copied
in for it, and there are too many nodes already; or connecting its body adds more nodes than it
takes away and than the ceiling has room for. -/
inductive Overruns (env : Env) (macros : MacroLibrary) (x : Expansion) (id : NodeId) : Prop
  | missing {n : ScriptNode} (hn : x.work.graph.node? id = some n) (hb : body? macros n.kind = none)
      (h : env.options.maxExpandedNodes + 1 < x.size) : Overruns env macros x id
  | connected {n : ScriptNode} {body : ScriptGraph} {resolved : Option PinType}
      (hn : x.work.graph.node? id = some n)
      (hb : body? macros n.kind = some (body, resolved)) (hfew : FewTunnels x.work id body resolved)
      (h : env.options.maxExpandedNodes + tunnelCount x.work id body resolved + 1 <
        x.size + body.nodeCount + additions env x id n body resolved) : Overruns env macros x id

theorem Turn.size_le_iff (h : Turn env macros x id y) :
    y.size ≤ env.options.maxExpandedNodes ↔ ¬ Overruns env macros x id := by
  constructor
  · intro hle hover
    cases hover with
    | missing hn hb hmore =>
        cases h with
        | missing _ _ left => omega
        | rejected hn' hb' | connected hn' hb' =>
            cases hn.symm.trans hn'
            cases hb.symm.trans hb'
    | connected hn hb hfew hmore =>
        cases h with
        | missing hn' hb' =>
            cases hn.symm.trans hn'
            cases hb.symm.trans hb'
        | rejected hn' hb' hmany =>
            cases hn.symm.trans hn'
            cases hb.symm.trans hb'
            exact hmany hfew
        | connected hn' hb' _ _ left _ =>
            cases hn.symm.trans hn'
            cases hb.symm.trans hb'
            omega
  · intro hwithin
    refine Nat.le_of_not_lt fun hmore => hwithin ?_
    cases h with
    | missing hn hb left => exact .missing hn hb (by omega)
    | rejected hn hb hmany within left => omega
    | connected hn hb hfew within left _ => exact .connected hn hb hfew (by omega)

theorem inline_turn (h : x.work.graph.Tidy) (hn : x.work.graph.node? id = some n)
    (hb : body? macros n.kind = some (body, resolved))
    (hh : (inline env x id n body resolved).halted = false) :
    Turn env macros x id (inline env x id n body resolved) := by
  obtain ⟨hd, hl⟩ := ceilings_of_inline hh
  have hwithin : x.size + body.nodeCount ≤ env.options.maxExpandedNodes := by
    rwa [size, ← h.nodeCount_merge]
  rw [inline_eq env x id n body resolved hd hl]
  extract_lets copies inputs outputs
  split
  · next hmany =>
      exact .rejected hn hb (fun hfew => fewTunnels_iff.mp hfew hmany) hwithin
        (size_rejected h hn _)
  · next hfew =>
      exact .connected hn hb (fewTunnels_iff.mpr hfew) hwithin
        (size_connectBody h hn (fewTunnels_iff.mpr hfew))
        ((connectBody_synthesized ..).trans (attached_gains h hn).synthesized)

theorem expandInstance_turn (h : x.work.graph.Tidy) (hx : x.halted = false)
    (hn : x.work.graph.node? id = some n) (hi : n.kind.isInstance = true)
    (hh : (expandInstance env macros x id).halted = false) :
    Turn env macros x id (expandInstance env macros x id) := by
  cases hb : body? macros n.kind with
  | some b =>
      have he : expandInstance env macros x id = inline env x id n b.1 b.2 := by
        simp [expandInstance, hx, hn, hb]
      rw [he] at hh ⊢
      exact inline_turn h hn hb hh
  | none =>
      refine .missing hn hb ?_
      rcases expandInstance_cases x id hx with
        ⟨_, hnone⟩ | ⟨_, issue, _, _, he⟩ | ⟨n', body, resolved, hn', hb', _⟩
      · rw [hnone n hn] at hi
        cases hi
      · rw [he]
        exact Graph.nodeCount_removeNode (Graph.contains_iff.mpr ⟨n, hn⟩)
      · cases hn.symm.trans hn'
        cases hb.symm.trans hb'

end Turn

theorem Holds.removeNodes {m : ScriptNode} (h : Holds k m w) {ids : List NodeId} (hk : k ∉ ids) :
    Holds k m (Expansion.removeNodes w ids) := by
  obtain ⟨m', hm', ht⟩ := h.node
  exact ⟨(removeNodes_linked w ids h.tidy).1, m',
    (node?_removeNodes w ids k).trans ((if_neg hk).trans hm'), ht⟩

variable (env macros) in
theorem expandInstance_holds {m : ScriptNode} {id : NodeId} (h : Holds k m x.work) (hne : k ≠ id) :
    Holds k m (expandInstance env macros x id).work := by
  have hreport {w : Working} (hw : Holds k m w) (issue : Issue) :
      Holds k m (w.report issue (some id)) := ⟨hw.tidy, hw.node⟩
  cases hx : x.halted with
  | true => rwa [expandInstance_halted x id hx]
  | false =>
      rcases expandInstance_cases x id hx with
        ⟨he, _⟩ | ⟨_, issue, _, _, he⟩ | ⟨n, body, resolved, _, _, he⟩
      · rwa [he]
      · rw [he]
        exact (hreport h issue).removeNodes (mt List.mem_singleton.mp hne)
      · rw [he]
        rcases inline_cases env x id n body resolved with
          ⟨_, _, hi⟩ | ⟨_, _, hi⟩ | ⟨_, v, ids, hids, hedits, hi, _⟩
        · rw [hi]
          exact hreport h _
        · rw [hi]
          exact hreport (resolvedIn_holds h id body none) _
        · rw [hi]
          refine (hedits.holds (resolvedIn_holds h id body resolved)).removeNodes fun hk => ?_
          rcases List.mem_append.mp hk with hk | hk
          · exact h.not_copy body (hids k hk)
          · exact hne (List.mem_singleton.mp hk)

namespace Loop

/-- Each instance that waits for its turn is there, and waits for one. -/
structure Orderly (a : Loop) : Prop where
  tidy : a.state.work.graph.Tidy
  uniform : a.Uniform
  once : a.tasks.Nodup
  there : ∀ id, .expand id ∈ a.tasks → ∃ n, a.state.work.graph.node? id = some n ∧ n.kind.isInstance = true

theorem nodup_agenda (g : ScriptGraph) : (agenda g).Nodup := by
  rw [agenda]
  split
  · exact (g.nodup_findNodes _).map fun _ _ h => Task.collapse.inj h
  · exact (g.nodup_findNodes _).map fun _ _ h => Task.expand.inj h

theorem Step.orderly {a b : Loop} (hs : Step env macros a b) (h : a.Orderly) : b.Orderly := by
  have hrun : Runs env macros 1 a b := .step hs (.done b)
  have htidy := hrun.tidy h.tidy
  have huniform := hrun.uniform h.uniform
  cases hs with
  | round x =>
      refine ⟨htidy, huniform, nodup_agenda _, fun id hid => ?_⟩
      obtain ⟨_, n, hn, ⟨he, hi⟩ | ⟨he, -⟩⟩ := mem_agenda hid <;> cases he
      exact ⟨n, hn, hi⟩
  | perform x task rest =>
      obtain ⟨hfirst, hrest⟩ := List.nodup_cons.mp h.once
      refine ⟨htidy, huniform, hrest, fun k hk => ?_⟩
      have hwaits : .expand k ∈ task :: rest := List.mem_cons_of_mem _ hk
      cases task with
      | collapse id =>
          exact (h.uniform.elim (fun hu => hu id List.mem_cons_self) fun hu => hu k hwaits).elim
      | expand id =>
          obtain ⟨n, hn, hi⟩ := h.there k hwaits
          have hne : k ≠ id := by
            rintro rfl
            exact hfirst hk
          obtain ⟨n', hn', ht⟩ := (expandInstance_holds env macros ⟨h.tidy, n, hn, rfl⟩ hne).node
          exact ⟨n', hn', Node.kind_eq_of_typed ht ▸ hi⟩

theorem Runs.orderly {i : Nat} {a b : Loop} (h : Runs env macros i a b) (ha : a.Orderly) : b.Orderly := by
  induction h with
  | done => exact ha
  | step hs _ ih => exact ih (hs.orderly ha)

end Loop

/-- In the expansion of the function, the instance has its turn. -/
def Comes (env : Env) (macros : MacroLibrary) (w : Working) (x : Expansion) (id : NodeId) : Prop :=
  x.halted = false ∧ ∃ i rest, Loop.Runs env macros i (Loop.start w) ⟨x, .expand id :: rest⟩

/-- After each instance, the function has no more nodes than are allowed. -/
def Bounded (env : Env) (macros : MacroLibrary) (w : Working) : Prop :=
  ∀ x id, Comes env macros w x id → (expandInstance env macros x id).size ≤ env.options.maxExpandedNodes

def HitsCeiling (env : Env) (macros : MacroLibrary) (w : Working) : Prop :=
  ∃ d ∈ (w.expand env macros).work.diagnostics.drop w.diagnostics.length, ∃ name detail,
  d.issue = .recursiveExpansion name detail

theorem unhalted_of_runs (hquiet : ¬ HitsCeiling env macros w) {i : Nat} {a : Loop}
    (h : Loop.Runs env macros i (Loop.start w) a) :
    a.state.halted = false := by
  obtain ⟨_, last, hr, hstuck, hstate, _⟩ := Loop.exists_last env macros w
  refine hr.unhalted hstuck (Bool.eq_false_iff.mpr fun hh => hquiet ?_) h
  obtain ⟨log, name, detail, location, hd⟩ := hr.reported hh
  refine ⟨⟨.recursiveExpansion name detail, location⟩, ?_, name, detail, rfl⟩
  rw [← hstate, hd, List.append_assoc, List.drop_left]
  exact List.mem_append_right log (List.mem_singleton_self _)

/-- As long as no ceiling is reported, the function is within it whenever a body has been copied in.
Connecting the body then adds literals and boundaries and takes the tunnels and the instance away.
So the function stays within the ceiling just if no instance overruns it by this account. -/
theorem expand_bounded_iff (htidy : w.graph.Tidy) (hquiet : ¬ HitsCeiling env macros w) :
    (∀ x id, Comes env macros w x id → Turn env macros x id (expandInstance env macros x id)) ∧
    (Bounded env macros w ↔ ∀ x id, Comes env macros w x id → ¬ Overruns env macros x id) := by
  have hturn (x : Expansion) (id : NodeId) (h : Comes env macros w x id) :
      Turn env macros x id (expandInstance env macros x id) := by
    obtain ⟨hx, i, rest, hr⟩ := h
    have hstart : (Loop.start w).Orderly :=
      ⟨htidy, Or.inl fun _ => List.not_mem_nil, List.nodup_nil, fun _ h => absurd h List.not_mem_nil⟩
    have horderly := hr.orderly hstart
    obtain ⟨n, hn, hi⟩ := horderly.there id List.mem_cons_self
    exact expandInstance_turn horderly.tidy hx hn hi
      (unhalted_of_runs hquiet (hr.snoc (.perform x (.expand id) rest hx)))
  exact ⟨hturn, forall₃_congr fun x id h => (hturn x id h).size_le_iff⟩

def fillBody (colours : List String) : ScriptGraph where
  name := "Fill"
  slots := [some { kind := .tunnel .input, title := "Inputs", ports := [.execOut "in"] },
    some { (ScriptNode.call "fill").addPorts (colours.map fun c => .dataIn c
      ⟨.int, .array⟩) with order := 1 },
    some { kind := .tunnel .output, title := "Outputs", ports := [.execIn "out"], order := 2 }]
  links := [⟨1, ⟨1, 1⟩, ⟨2, 0⟩, .control⟩, ⟨0, ⟨0, 0⟩, ⟨1, 0⟩, .control⟩]
  linkBound := 2
  nextOrder := 3

def palette (colours : List String) : MacroLibrary := .ofList [("Fill", fillBody colours)]

def fillInstance : ScriptNode :=
  { (ScriptNode.macroInstance "Fill").addPorts [.execIn "in", .execOut "out"] with order := 1 }

def painting : Working where
  function := "paint"
  role := .function
  sourceGraph := "paint"
  graph :=
    { name := "paint"
      slots := [some (ScriptNode.entry "paint"), some fillInstance,
        some { ScriptNode.result with order := 2 }]
      links := [⟨1, ⟨1, 1⟩, ⟨2, 0⟩, .control⟩, ⟨0, ⟨0, 0⟩, ⟨1, 0⟩, .control⟩]
      linkBound := 2
      nextOrder := 3 }

/-- Boundaries are marked, and six nodes are allowed: those of the function and of the body. -/
def six : Env := { options := { debugInstrumentation := true, maxExpandedNodes := 6 } }

theorem painting_tidy : painting.graph.Tidy :=
  ⟨rfl, List.nodup_nil, fun _ h => absurd h List.not_mem_nil, by decide, by decide⟩

def colours (both : Bool) : List String := if both then ["red", "green"] else ["red"]

theorem painting_quiet (both : Bool) : ¬ HitsCeiling six (palette (colours both)) painting := by
  have hnone : (painting.expand six (palette (colours both))).work.diagnostics = [] := by
    cases both <;> cbv
  rintro ⟨d, hd, _⟩
  rw [hnone] at hd
  cases hd

theorem step_painting (both : Bool) : Loop.Step six (palette (colours both)) (Loop.start painting)
    ⟨Loop.countRound { work := painting }, [.expand 1]⟩ := by
  have hagenda : agenda painting.graph = [.expand 1] := by cbv
  have hstep : Loop.Step six (palette (colours both)) (Loop.start painting)
      ⟨Loop.countRound { work := painting }, agenda painting.graph⟩ := .round _ rfl (by simp [hagenda])
  rwa [hagenda] at hstep

theorem comes_painting_iff {both : Bool} {x : Expansion} {id : NodeId} :
    Comes six (palette (colours both)) painting x id ↔ x = Loop.countRound { work := painting } ∧
      id = 1 := by
  constructor
  · rintro ⟨_, i, rest, hr⟩
    have hagenda : agenda (expandInstance six (palette (colours both))
        (Loop.countRound { work := painting }) 1).work.graph = [] := by
      cases both <;> cbv
    cases hr with
    | step hs hr =>
    cases Loop.step_unique hs (step_painting both)
    cases hr with
    | done => exact ⟨rfl, rfl⟩
    | step hs hr =>
    cases hs with
    | perform =>
    cases hr with
    | step hs => exact absurd hs (Loop.not_step_of_expanded (expanded_iff.mpr hagenda) _)
  · rintro ⟨rfl, rfl⟩
    exact ⟨rfl, 1, [], .step (step_painting both) (.done _)⟩

/-- With one list, the boundaries and the literal just make up for the tunnels and the instance. -/
theorem painting_bounded : painting.graph.Tidy ∧ ¬ HitsCeiling six (palette (colours false)) painting ∧
    (painting.expand six (palette (colours false))).stats.instances = 1 ∧
      Bounded six (palette (colours false)) painting := by
  refine ⟨painting_tidy, painting_quiet false,
    by cbv, (expand_bounded_iff painting_tidy (painting_quiet false)).2.mpr ?_⟩
  intro x id h hover
  obtain ⟨rfl, rfl⟩ := comes_painting_iff.mp h
  cases hover with
  | missing _ _ hmore => exact absurd hmore (by decide)
  | connected hn hb _ hmore =>
      cases hn
      cases hb
      have htunnels : tunnelCount painting 1 (fillBody (colours false)) none = 2 := by cbv
      have hadded : additions six (Loop.countRound { work := painting }) 1 fillInstance
          (fillBody (colours false)) none = 3 := by cbv
      have hfits : ¬ 6 + tunnelCount painting 1 (fillBody (colours false)) none + 1 <
          3 + 3 + additions six (Loop.countRound { work := painting }) 1 fillInstance
            (fillBody (colours false)) none := by
        rw [htunnels, hadded]
        decide
      exact hfits hmore

/-- With two lists there are seven nodes in the end, and nothing is reported. -/
theorem painting_unbounded : painting.graph.Tidy ∧ ¬ HitsCeiling six (palette (colours true)) painting ∧
    (painting.expand six (palette (colours true))).stats.instances = 1 ∧
    (painting.expand six (palette (colours true))).size = 7 ∧
      ¬ Bounded six (palette (colours true)) painting := by
  have hmore : (expandInstance six (palette (colours true)) (Loop.countRound { work := painting })
      1).size = 7 := by cbv
  refine ⟨painting_tidy, painting_quiet true, by cbv, by cbv, fun h => ?_⟩
  have hle := h _ 1 (comes_painting_iff.mpr ⟨rfl, rfl⟩)
  rw [hmore] at hle
  exact absurd hle (by decide)

end Expansion

end VisualScript
