import VisualScript.Proofs.Expansion.Edits
import VisualScript.Proofs.Graph.Copies
import VisualScript.Proofs.Graph.Ports
import VisualScript.Proofs.Working.Reporting

namespace VisualScript

namespace CompilationUnit

/-- The graphs a unit is authored in: its functions, event pages and macros and, within these, the
bodies of composites. -/
inductive Authors (u : CompilationUnit) : ScriptGraph → Prop
  | function {g : ScriptGraph} (h : g ∈ u.functionGraphs) : u.Authors g
  | page {g : ScriptGraph} (h : g ∈ u.eventGraphs) : u.Authors g
  | macroBody {name : String} {g : ScriptGraph} (h : u.macros.get? name = some g) : u.Authors g
  | composite {g body : ScriptGraph} {id : NodeId} {n : ScriptNode} (h : u.Authors g)
      (hn : g.node? id = some n)
      (hk : n.kind = .composite body) : u.Authors body

def Authored (u : CompilationUnit) (s : SourceRef) : Prop :=
  ∃ g n, u.Authors g ∧ g.name = s.graph ∧ g.node? s.node = some n

end CompilationUnit

/-- Wherever the location points to has a property. -/
structure SourceLocation.Within (l : SourceLocation) (A : SourceRef → Prop) : Prop where
  source : ∀ {s : SourceRef}, l.source = some s → A s
  callSite : ∀ {s : SourceRef}, l.callSite = some s → A s

/-- The origin of a node: it does not nest too deep, and it refers to where nodes may come from. Only that
of a muted node may refer to elsewhere itself. -/
structure Origin.Rooted (A : SourceRef → Prop) (limit : Nat) (muted : Prop) (o : Origin) : Prop where
  shallow : o.depth ≤ limit
  sites : ∀ s ∈ o.callSites, A s
  source : ¬ muted → A o.source

/-- An entry without inputs, of which nobody is warned. -/
structure Node.Mute (n : ScriptNode) : Prop where
  isEntry : n.kind.isEntry = true
  current : n.deprecated = false
  outputs : ∀ p ∈ n.ports, p.direction = .output

theorem Node.Mute.of_outline {n m : ScriptNode} (h : n.Mute) (ho : m.outline = n.outline) : m.Mute where
  isEntry := kind_eq_of_outline ho ▸ h.isEntry
  current := (congrArg Node.deprecated ho).trans h.current
  outputs p hp := by
    have hports := congrArg Node.ports ho
    have hp' : (⟨p.name, p.direction, p.role, .wildcard, none⟩ : Port) ∈ m.outline.ports :=
      List.mem_map_of_mem hp
    rw [hports] at hp'
    obtain ⟨q, hq, he⟩ := List.mem_map.mp hp'
    exact (congrArg Port.direction he).symm.trans (h.outputs q hq)

theorem Graph.Tidy.linked_of_mem_farEnds {g : ScriptGraph} (h : g.Tidy) {p q : PortRef}
    (hq : q ∈ g.farEnds p) :
    g.Linked q p ∨ g.Linked p q := by
  cases hp : g.port? p with
  | none => rw [farEnds, edges, hp] at hq; cases hq
  | some port => cases hd : port.direction with
    | input => exact Or.inl ((mem_farEnds_input h.unthreaded hp hd).mp hq)
    | output => exact Or.inr ((mem_farEnds_output h.unthreaded hp hd).mp hq)

def Graph.Open (g : ScriptGraph) (muted : NodeId → Prop) (k : NodeId) : Prop :=
  (∃ n, g.node? k = some n) ∧ ¬ muted k

namespace Working

structure Accounted (w : Working) : Prop where
  tidy : w.graph.Tidy
  live : ∀ k, (w.provenance.get? k).isSome = (w.graph.node? k).isSome

/-- Every node has an origin that does not nest too deep, and what is reported points to where the
nodes came from. Some nodes are `muted`: they are entries that nothing is linked to, and they may have come
from elsewhere, but nothing is reported on them. -/
structure Traced (u : CompilationUnit) (A : SourceRef → Prop) (limit : Nat) (muted : NodeId → Prop)
    (w : Working) : Prop
    extends w.Accounted where
  rooted : ∀ {k : NodeId} {o : Origin}, w.provenance.get? k = some o → o.Rooted A limit (muted k)
  bodies : ∀ {k : NodeId} {n : ScriptNode} {body : ScriptGraph}, w.graph.node? k = some n →
    n.kind = .composite body →
    u.Authors body
  mute : ∀ {k : NodeId}, muted k → ∃ n, w.graph.node? k = some n ∧ n.Mute
  joined : ∀ {a b : PortRef}, w.graph.Linked a b → w.graph.Open muted a.node ∧ w.graph.Open muted b.node
  located : ∀ d ∈ w.diagnostics, d.location.Within A

variable {u : CompilationUnit} {A : SourceRef → Prop} {limit : Nat} {muted : NodeId → Prop}
    {w w' : Working}

theorem Accounted.origin (h : w.Accounted) {k : NodeId} {n : ScriptNode} (hn : w.graph.node? k = some n) :
    ∃ o, w.provenance.get? k = some o :=
  Option.isSome_iff_exists.mp ((h.live k).trans (hn ▸ rfl))

theorem Accounted.get?_of_vacant (h : w.Accounted) {k : NodeId} (hn : w.graph.node? k = none) :
    w.provenance.get? k = none :=
  Option.not_isSome_iff_eq_none.mp (by rw [h.live, hn]; exact Bool.false_ne_true)

theorem Accounted.relink (h : w.Accounted) {g : ScriptGraph} (hsame : g.SameOutline w.graph)
    (htidy : g.Tidy) :
    Accounted { w with graph := g } where
  tidy := htidy
  live k := by
    have hk := congrArg Option.isSome (hsame k)
    rw [Option.isSome_map, Option.isSome_map] at hk
    exact (h.live k).trans hk.symm

theorem Accounted.addNode (h : w.Accounted) (n : ScriptNode) (o : Origin) : Accounted { w with
      graph := (w.graph.addNode n).2
      provenance := w.provenance.record (w.graph.addNode n).1 o } where
  tidy := h.tidy.addNode n
  live k := by
    simp only [Provenance.get?_record, h.tidy.node?_addNode]
    split
    · rfl
    · exact h.live k

theorem Accounted.merge (h : w.Accounted) {body : ScriptGraph} {p : Provenance}
    (hp : ∀ k, (k ∉ (w.graph.merge body).1.copies ∧ p.get? k = w.provenance.get? k) ∨
      ∃ s o, (s, k) ∈ (w.graph.merge body).1.pairs ∧ p.get? k = some o) :
    Accounted { w with graph := (w.graph.merge body).2, provenance := p } where
  tidy := h.tidy.merge body
  live k := by
    rcases hp k with ⟨hk, hget⟩ | ⟨s, o, hs, hget⟩
    · simp only [hget, h.tidy.node?_merge body hk, h.live k]
    · obtain ⟨n, order, -, hn⟩ := h.tidy.mem_merge hs
      simp only [hget, hn]
      rfl

namespace Traced

variable {k : NodeId} {n : ScriptNode} (h : w.Traced u A limit muted)

include h

theorem not_muted (hn : w.graph.node? k = some n) (hk : n.kind.isEntry = false) : ¬ muted k := by
  intro hm
  obtain ⟨m, hm, hmute⟩ := h.mute hm
  cases hn.symm.trans hm
  rw [hmute.isEntry] at hk
  cases hk

theorem not_muted_of_vacant (hn : w.graph.node? k = none) : ¬ muted k := by
  intro hm
  obtain ⟨m, hm, -⟩ := h.mute hm
  rw [hn] at hm
  cases hm

theorem not_muted_far {p q : PortRef} (hq : q ∈ w.graph.farEnds p) : ¬ muted q.node :=
  (h.tidy.linked_of_mem_farEnds hq).elim (fun hl => (h.joined hl).1.2) fun hl => (h.joined hl).2.2

theorem farEnds_of_muted {p : PortRef} (hp : muted p.node) : w.graph.farEnds p = [] := by
  refine List.eq_nil_iff_forall_not_mem.mpr fun q hq => ?_
  exact (h.tidy.linked_of_mem_farEnds hq).elim (fun hl => (h.joined hl).2.2 hp) fun hl =>
    (h.joined hl).1.2 hp

theorem congr (hg : w'.graph = w.graph) (hp : w'.provenance = w.provenance)
    (hd : w'.diagnostics = w.diagnostics) : w'.Traced u A limit muted := by
  refine ⟨⟨?_, ?_⟩, ?_, ?_, ?_, ?_, ?_⟩ <;> simp only [hg, hp, hd]
  exacts [h.tidy, h.live, h.rooted, h.bodies, h.mute, h.joined, h.located]

theorem report (issue : Issue) {node : Option NodeId} (hnode : ∀ k, node = some k → ¬ muted k)
    (port : Option UInt16) : (w.report issue node port).Traced u A limit muted where
  toAccounted := ⟨h.tidy, h.live⟩
  rooted := h.rooted
  bodies := h.bodies
  mute := h.mute
  joined := h.joined
  located d hd := by
    rcases List.mem_append.mp hd with hd | hd
    · exact h.located d hd
    · cases List.mem_singleton.mp hd
      cases node with
      | none =>
          exact ⟨fun hs => absurd hs.symm (Option.some_ne_none _),
            fun hs => absurd hs.symm (Option.some_ne_none _)⟩
      | some k =>
          constructor <;> intro s hs
          · obtain ⟨o, ho, rfl⟩ := Option.map_eq_some_iff.mp hs
            exact (h.rooted ho).source (hnode k rfl)
          · obtain ⟨o, ho, hs⟩ := Option.bind_eq_some_iff.mp hs
            exact (h.rooted ho).sites s (List.mem_of_head? hs)

theorem reportAt (issue : Issue) (hk : ¬ muted k) (port : Option UInt16) :
    (w.report issue (some k) port).Traced u A limit muted :=
  h.report issue (fun _ he => Option.some.inj he ▸ hk) port

theorem act {about : NodeId → Prop} (habout : ∀ k, about k → ¬ muted k) (ha : Act about w w') :
    w'.Traced u A limit muted := by
  cases ha with
  | terms terms => exact h.congr rfl rfl rfl
  | inspect p => exact h.congr rfl rfl rfl
  | report issue id port hid => exact h.reportAt issue (habout id hid) port

theorem acts {about : NodeId → Prop} (habout : ∀ k, about k → ¬ muted k) (ha : Acts about w w') :
    w'.Traced u A limit muted := by
  induction ha with
  | refl => exact h
  | tail _ ha ih => exact ih.act habout ha

theorem speaks (hs : w.Speaks w') : w'.Traced u A limit muted :=
  h.acts (fun _ hk => hk.elim fun _ hn => h.not_muted hn.1 hn.2) hs

theorem relink {g : ScriptGraph} (hsame : g.SameOutline w.graph) (htidy : g.Tidy)
    (hlinks : ∀ {a b : PortRef}, g.Linked a b → w.graph.Open muted a.node ∧ w.graph.Open muted b.node) :
    Traced u A limit muted { w with graph := g } where
  toAccounted := h.toAccounted.relink hsame htidy
  rooted := h.rooted
  bodies {k n body} hn hk := by
    obtain ⟨m, hm, ho⟩ := hsame.symm.node? hn
    exact h.bodies hm ((Node.kind_eq_of_outline ho).trans hk)
  mute hk := by
    obtain ⟨m, hm, hmute⟩ := h.mute hk
    obtain ⟨n, hn, ho⟩ := hsame.node? hm
    exact ⟨n, hn, hmute.of_outline ho⟩
  joined hl := by
    have hopen {k : NodeId} (hk : w.graph.Open muted k) : g.Open muted k :=
      ⟨hk.1.elim fun _ hn => (hsame.node? hn).imp fun _ => And.left, hk.2⟩
    exact ⟨hopen (hlinks hl).1, hopen (hlinks hl).2⟩
  located := h.located

/-- A node is added. If it is to be muted, its origin may be from elsewhere. -/
theorem place (hn : ∀ body, n.kind ≠ .composite body) {o : Origin} {silent : Prop}
    (ho : o.Rooted A limit silent) (hmute : silent → n.Mute) :
    Traced u A limit (fun k => muted k ∨ k = (w.graph.addNode n).1 ∧ silent) { w with
      graph := (w.graph.addNode n).2
      provenance := w.provenance.record (w.graph.addNode n).1 o } where
  toAccounted := h.toAccounted.addNode n o
  rooted {k o'} ho' := by
    simp only [Provenance.get?_record] at ho'
    split at ho'
    · next he =>
      cases ho'
      exact ⟨ho.shallow, ho.sites, fun hk => ho.source fun hs => hk (Or.inr ⟨he, hs⟩)⟩
    · have hr := h.rooted ho'
      exact ⟨hr.shallow, hr.sites, fun hk => hr.source fun hm => hk (Or.inl hm)⟩
  bodies {k m body} hm hk := by
    simp only [h.tidy.node?_addNode] at hm
    split at hm
    · cases hm; exact absurd hk (hn body)
    · exact h.bodies hm hk
  mute {k} hk := by
    simp only [h.tidy.node?_addNode]
    rcases hk with hk | ⟨hk, hs⟩
    · have hne : k ≠ (w.graph.addNode n).1 :=
        fun he => h.not_muted_of_vacant (he ▸ h.tidy.addNode_fresh n) hk
      rw [if_neg hne]
      exact h.mute hk
    · rw [if_pos hk]
      exact ⟨_, rfl, (hmute hs).isEntry, (hmute hs).current, (hmute hs).outputs⟩
  joined {a b} hl := by
    have hopen {k : NodeId} (hk : w.graph.Open muted k) :
        (w.graph.addNode n).2.Open (fun k => muted k ∨ k = (w.graph.addNode n).1 ∧ silent) k := by
      obtain ⟨⟨m, hm⟩, hk⟩ := hk
      have hne : k ≠ (w.graph.addNode n).1 := fun he => by
        rw [he, h.tidy.addNode_fresh] at hm
        cases hm
      exact ⟨⟨m, by rw [h.tidy.node?_addNode, if_neg hne]; exact hm⟩,
        fun hmuted => hmuted.elim hk fun hs => hne hs.1⟩
    have hl' := h.joined ((Graph.Linked.congr (h.tidy.addNode_links n) a b).mp hl)
    exact ⟨hopen hl'.1, hopen hl'.2⟩
  located := h.located

theorem of_muted {muted' : NodeId → Prop} (hm : ∀ k, muted' k ↔ muted k) :
    w.Traced u A limit muted' := by
  rwa [show muted' = muted from funext fun k => propext (hm k)]

theorem addNode (hn : ∀ body, n.kind ≠ .composite body) {o : Origin}
    (ho : o.Rooted A limit False) : Traced u A limit muted { w with
      graph := (w.graph.addNode n).2
      provenance := w.provenance.record (w.graph.addNode n).1 o } :=
  (h.place hn ho False.elim).of_muted fun _ => by simp

theorem merge {body : ScriptGraph} (hbody : u.Authors body) {p : Provenance}
    (hp : ∀ k, (k ∉ (w.graph.merge body).1.copies ∧ p.get? k = w.provenance.get? k) ∨
    ∃ s o, (s, k) ∈ (w.graph.merge body).1.pairs ∧ p.get? k = some o ∧ o.Rooted A limit False) :
    Traced u A limit muted { w with graph := (w.graph.merge body).2, provenance := p } where
  toAccounted := h.toAccounted.merge fun k =>
    (hp k).imp_right (Exists.imp fun _ => Exists.imp fun _ ho => ⟨ho.1, ho.2.1⟩)
  rooted {k o} ho := by
    rcases hp k with ⟨-, hget⟩ | ⟨s, o', -, hget, hr⟩
    · exact h.rooted (hget.symm.trans ho)
    · cases hget.symm.trans ho
      exact ⟨hr.shallow, hr.sites, fun _ => hr.source id⟩
  bodies {k m inner} hm hk := by
    rcases Graph.merge_cases w.graph body k m hm with hm | ⟨s, n, hs, -, he⟩
    · exact h.bodies hm hk
    · rw [he] at hk
      exact .composite hbody (Graph.mem_nodes.mp hs) hk
  mute {k} hk := by
    have hcopy : k ∉ (w.graph.merge body).1.copies :=
      fun hc => h.not_muted_of_vacant (h.tidy.merge_fresh body hc) hk
    obtain ⟨n, hn, hmute⟩ := h.mute hk
    exact ⟨n, (h.tidy.node?_merge body hcopy).trans hn, hmute⟩
  joined {a b} hl := by
    have hold {k : NodeId} (hk : w.graph.Open muted k) : (w.graph.merge body).2.Open muted k := by
      obtain ⟨⟨n, hn⟩, hk⟩ := hk
      have hcopy : k ∉ (w.graph.merge body).1.copies := fun hc => by
        rw [h.tidy.merge_fresh body hc] at hn
        cases hn
      exact ⟨⟨n, (h.tidy.node?_merge body hcopy).trans hn⟩, hk⟩
    have hcopy {k : NodeId} (hk : k ∈ (w.graph.merge body).1.copies) :
        (w.graph.merge body).2.Open muted k := by
      obtain ⟨⟨s, _⟩, hs, rfl⟩ := List.mem_map.mp hk
      obtain ⟨n, order, -, hn⟩ := h.tidy.mem_merge hs
      exact ⟨⟨_, hn⟩, h.not_muted_of_vacant (h.tidy.merge_fresh body hk)⟩
    -- No link leads from the old nodes to the copies.
    rcases h.tidy.linked_merge body hl with hl | ⟨ha, hb⟩
    · exact ⟨hold (h.joined hl).1, hold (h.joined hl).2⟩
    · exact ⟨hcopy ha, hcopy hb⟩
  located := h.located

theorem removeNode (hk : ¬ muted k) : (w.removeNode k).Traced u A limit muted where
  tidy := h.tidy.removeNode k
  live k' := by
    simp only [Working.removeNode, Provenance.get?_forget, Graph.node?_removeNode]
    split
    · rfl
    · exact h.live k'
  rooted {k' o} ho := by
    simp only [Working.removeNode, Provenance.get?_forget] at ho
    split at ho
    · cases ho
    · exact h.rooted ho
  bodies {k' n body} hn := by
    simp only [Working.removeNode, Graph.node?_removeNode] at hn
    split at hn
    · cases hn
    · exact h.bodies hn
  mute {k'} hk' := by
    obtain ⟨n, hn, hmute⟩ := h.mute hk'
    have hne : k' ≠ k := fun he => hk (he ▸ hk')
    exact ⟨n, by rw [Working.removeNode, Graph.node?_removeNode, if_neg hne]; exact hn, hmute⟩
  joined := by
    rintro a b ⟨l, hl, rfl, rfl⟩
    -- The links of the node went with it, so the ends of those that are left are other nodes.
    obtain ⟨hl, hne⟩ := (h.tidy.mem_links_removeNode k).mp hl
    have hopen {k' : NodeId} (hk' : w.graph.Open muted k') (hne : w.graph.contains k = true → k' ≠ k) :
        (w.graph.removeNode k).Open muted k' := by
      obtain ⟨⟨n, hn⟩, hk'⟩ := hk'
      have hne : k' ≠ k := fun he => hne (Graph.contains_iff.mpr ⟨n, he ▸ hn⟩) he
      exact ⟨⟨n, by rw [Graph.node?_removeNode, if_neg hne]; exact hn⟩, hk'⟩
    have hends := h.joined ⟨l, hl, rfl, rfl⟩
    exact ⟨hopen hends.1 fun hk => (hne hk).1, hopen hends.2 fun hk => (hne hk).2⟩
  located := h.located

theorem removeNodes {ids : List NodeId} (hids : ∀ k ∈ ids, ¬ muted k) :
    (ids.foldl Working.removeNode w).Traced u A limit muted :=
  List.foldlRecOn (motive := fun w : Working => w.Traced u A limit muted) _ _ h fun _ hw k hk =>
    hw.removeNode (hids k hk)

end Traced

end Working

end VisualScript
