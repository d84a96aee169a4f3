import VisualScript.Format.Graph
import VisualScript.Proofs.Expansion.Splicing

namespace VisualScript.Expansion

/-- The ports that meet where a body was copied in for an instance: an input of the instance and the
output of that name of the input tunnel, or an input of the output tunnel and the output of that name
of the instance. -/
def Paired (g : ScriptGraph) (id : NodeId) (copies : List NodeId) (p q : PortRef) : Prop :=
  ∃ port port', g.port? p = some port ∧ g.port? q = some port' ∧ port.name = port'.name ∧
    port.direction = .input ∧ port'.direction = .output ∧
    ((p.node = id ∧ q.node ∈ tunnelsOf g copies .input) ∨
      (p.node ∈ tunnelsOf g copies .output ∧ q.node = id))

/-- An instance with a body that has at most one tunnel on each side. -/
structure Site.Fits (s : Site) (g : ScriptGraph) (copies : List NodeId) : Prop where
  node : g.node? s.id = some s.node
  named : s.node.WellNamed
  apart : s.id ∉ copies
  input : ∀ t, t ∈ tunnelsOf g copies .input ↔ s.input = some t
  output : ∀ t, t ∈ tunnelsOf g copies .output ↔ s.output = some t
  tunnels : ∀ side, ∀ t ∈ tunnelsOf g copies side, ∃ m, g.node? t = some m ∧ m.WellNamed

theorem mem_copies_of_tunnel {g : ScriptGraph} {copies : List NodeId} {side : TunnelSide} {t : NodeId}
    (h : t ∈ tunnelsOf g copies side) : t ∈ copies :=
  List.mem_of_mem_filter h

variable {s : Site} {g : ScriptGraph} {copies : List NodeId} {p q : PortRef} {side : TunnelSide}
    {d : Direction} {t : NodeId}

theorem Site.Fits.port? (h : s.Fits g copies) {i : UInt16} : g.port? ⟨s.id, i⟩ = s.node.port? i := by
  rw [Graph.port?, h.node, Option.bind_some]

theorem findPort?_tunnel {m : ScriptNode} (hm : g.node? t = some m) (hw : m.WellNamed)
    {name : String} {r : PortRef} :
    g.findPort? t name d = some r ↔ r.node = t ∧ ∃ port, g.port? r = some port ∧ port.name = name ∧
      port.direction = d := by
  simp only [Graph.findPort?, hm, Option.bind_some, Option.map_eq_some_iff, hw.findPort?]
  constructor
  · rintro ⟨i, hi, rfl⟩
    refine ⟨rfl, ?_⟩
    simpa only [Graph.port?, hm, Option.bind_some] using hi
  · rintro ⟨rfl, hr⟩
    refine ⟨r.index, ?_, rfl⟩
    simpa only [Graph.port?, hm, Option.bind_some] using hr

/-- The instance's end of a pair has the position of the port, the other end is found by its name. -/
theorem Site.Fits.pair?_eq_some (h : s.Fits g copies) (i : UInt16) (port : Port) (r : PortRef × PortRef) :
    s.pair? g (i, port) = some r ↔
      (port.direction = .input ∧ r.1 = ⟨s.id, i⟩ ∧ r.2.node ∈ tunnelsOf g copies .input ∧
        ∃ port', g.port? r.2 = some port' ∧ port'.name = port.name ∧ port'.direction = .output) ∨
      (port.direction = .output ∧ r.2 = ⟨s.id, i⟩ ∧ r.1.node ∈ tunnelsOf g copies .output ∧
        ∃ port', g.port? r.1 = some port' ∧ port'.name = port.name ∧ port'.direction = .input) := by
  obtain ⟨up, down⟩ := r
  have hfind (side : TunnelSide) (d : Direction) (tunnel : Option NodeId)
      (ht : ∀ t, t ∈ tunnelsOf g copies side ↔ tunnel = some t) (inner : PortRef) :
      (tunnel.bind fun t => g.findPort? t port.name d) = some inner ↔
        inner.node ∈ tunnelsOf g copies side ∧
        ∃ port', g.port? inner = some port' ∧ port'.name = port.name ∧ port'.direction = d := by
    rw [Option.bind_eq_some_iff]
    constructor
    · rintro ⟨t, hs, hf⟩
      obtain ⟨m, hm, hw⟩ := h.tunnels side t ((ht t).mpr hs)
      obtain ⟨rfl, hp⟩ := (findPort?_tunnel hm hw).mp hf
      exact ⟨(ht _).mpr hs, hp⟩
    · rintro ⟨hi, hp⟩
      obtain ⟨m, hm, hw⟩ := h.tunnels side _ hi
      exact ⟨inner.node, (ht _).mp hi, (findPort?_tunnel hm hw).mpr ⟨rfl, hp⟩⟩
  cases hd : port.direction with
  | input =>
      simp only [Site.pair?, hd, Option.map_eq_some_iff, hfind .input .output s.input h.input,
        Prod.mk.injEq]
      constructor
      · rintro ⟨inner, hi, rfl, rfl⟩
        exact Or.inl ⟨trivial, rfl, hi⟩
      · rintro (⟨_, rfl, hi⟩ | ⟨hc, _⟩)
        · exact ⟨down, hi, rfl, rfl⟩
        · cases hc
  | output =>
      simp only [Site.pair?, hd, Option.map_eq_some_iff, hfind .output .input s.output h.output,
        Prod.mk.injEq]
      constructor
      · rintro ⟨inner, hi, rfl, rfl⟩
        exact Or.inr ⟨trivial, rfl, hi⟩
      · rintro (⟨hc, _⟩ | ⟨_, rfl, hi⟩)
        · cases hc
        · exact ⟨up, hi, rfl, rfl⟩

theorem Site.Fits.mem_pairs (h : s.Fits g copies) :
    (p, q) ∈ s.node.indexed.filterMap (s.pair? g) ↔ Paired g s.id copies p q := by
  rw [List.mem_filterMap]
  constructor
  · rintro ⟨⟨i, port⟩, hi, hr⟩
    have hport : g.port? ⟨s.id, i⟩ = some port := h.port?.trans ((Node.mem_indexed h.named.few).mp hi)
    rcases (h.pair?_eq_some i port (p, q)).mp hr with
      ⟨hd, rfl, ht, port', hq, hname, hd'⟩ | ⟨hd, rfl, ht, port', hp, hname, hd'⟩
    · exact ⟨port, port', hport, hq, hname.symm, hd, hd', Or.inl ⟨rfl, ht⟩⟩
    · exact ⟨port', port, hp, hport, hname, hd', hd, Or.inr ⟨ht, rfl⟩⟩
  · obtain ⟨i, j⟩ := p
    obtain ⟨i', j'⟩ := q
    rintro ⟨port, port', hp, hq, hname, hd, hd', ⟨hid, ht⟩ | ⟨ht, hid⟩⟩
    · cases hid
      refine ⟨(j, port), (Node.mem_indexed h.named.few).mpr (h.port?.symm.trans hp), ?_⟩
      exact (h.pair?_eq_some _ _ _).mpr (Or.inl ⟨hd, rfl, ht, port', hq, hname.symm, hd'⟩)
    · cases hid
      refine ⟨(j', port'), (Node.mem_indexed h.named.few).mpr (h.port?.symm.trans hq), ?_⟩
      exact (h.pair?_eq_some _ _ _).mpr (Or.inr ⟨hd', rfl, ht, port, hp, hname, hd⟩)

theorem Paired.boundary {id : NodeId} (h : Paired g id copies p q) : Boundary g id copies (p, q) := by
  obtain ⟨port, port', hp, hq, _, hd, hd', hsides⟩ := h
  refine ⟨⟨port, hp, hd⟩, ⟨port', hq, hd'⟩, hsides.imp ?_ ?_⟩
  · exact fun ⟨hid, ht⟩ => ⟨hid, mem_copies_of_tunnel ht⟩
  · exact fun ⟨ht, hid⟩ => ⟨mem_copies_of_tunnel ht, hid⟩

theorem Site.Fits.pairs_distinct (h : s.Fits g copies) :
    (s.node.indexed.filterMap (s.pair? g)).Pairwise fun r r' => r.1 ≠ r'.1 ∧ r.2 ≠ r'.2 := by
  rw [List.pairwise_filterMap]
  refine h.named.indexed.imp ?_
  rintro ⟨i, port⟩ ⟨j, port'⟩ ⟨hij, hnames⟩ r hr r' hr'
  -- Ports of the instance differ in position, those of a tunnel in name; the instance is no tunnel.
  have happart {a : PortRef} {side : TunnelSide} {k : UInt16}
      (ht : a.node ∈ tunnelsOf g copies side) : a ≠ ⟨s.id, k⟩ := by
    rintro rfl
    exact h.apart (mem_copies_of_tunnel ht)
  have hindex : (⟨s.id, i⟩ : PortRef) ≠ ⟨s.id, j⟩ := fun he => hij (congrArg PortRef.index he)
  have hinner {a b : PortRef} (ha : ∃ pa, g.port? a = some pa ∧ pa.name = port.name)
      (hb : ∃ pb, g.port? b = some pb ∧ pb.name = port'.name)
        (hd : port.direction = port'.direction) : a ≠ b := by
    rintro rfl
    obtain ⟨pa, ha, hna⟩ := ha
    obtain ⟨pb, hb, hnb⟩ := hb
    rw [ha] at hb
    cases hb
    exact hnames hd (hna.symm.trans hnb)
  rcases (h.pair?_eq_some i port r).mp hr with
    ⟨hd, h₁, ht, pr, hp, hn, _⟩ | ⟨hd, h₂, ht, pr, hp, hn, _⟩ <;>
    rcases (h.pair?_eq_some j port' r').mp hr' with
      ⟨hd', h₁', ht', pr', hp', hn', _⟩ | ⟨hd', h₂', ht', pr', hp', hn', _⟩
  · exact ⟨h₁ ▸ h₁' ▸ hindex, hinner ⟨pr, hp, hn⟩ ⟨pr', hp', hn'⟩ (hd.trans hd'.symm)⟩
  · exact ⟨h₁ ▸ (happart ht').symm, h₂' ▸ happart ht⟩
  · exact ⟨h₁' ▸ happart ht, h₂ ▸ (happart ht').symm⟩
  · exact ⟨hinner ⟨pr, hp, hn⟩ ⟨pr', hp', hn'⟩ (hd.trans hd'.symm), h₂ ▸ h₂' ▸ hindex⟩

/-- A graph to which nodes and links to them were added. -/
structure Grown (g g' : ScriptGraph) : Prop where
  tidy : g'.Tidy
  kept : ∀ k n, g.node? k = some n → g'.node? k = some n
  linked : ∀ a b, g.contains a.node = true → g.contains b.node = true → (g'.Linked a b ↔ g.Linked a b)

theorem Grown.refl (h : g.Tidy) : Grown g g := ⟨h, fun _ _ hn => hn, fun _ _ _ _ => .rfl⟩

theorem Grown.contains {g' : ScriptGraph} (h : Grown g g') {k : NodeId} (hk : g.contains k = true) :
    g'.contains k = true := by
  obtain ⟨n, hn⟩ := Graph.contains_iff.mp hk
  exact Graph.contains_iff.mpr ⟨n, h.kept k n hn⟩

theorem Grown.trans {g' g'' : ScriptGraph} (h : Grown g g') (h' : Grown g' g'') : Grown g g'' where
  tidy := h'.tidy
  kept k n hn := h'.kept k n (h.kept k n hn)
  linked a b ha hb := (h'.linked a b (h.contains ha) (h.contains hb)).trans (h.linked a b ha hb)

theorem Grown.foldl {α : Type} (f : Expansion → α → Expansion)
    (hf : ∀ x a, x.work.graph.Tidy → Grown x.work.graph (f x a).work.graph) (l : List α) (x : Expansion)
    (h : x.work.graph.Tidy) : Grown x.work.graph (l.foldl f x).work.graph := by
  induction l generalizing x with
  | nil => exact .refl h
  | cons a rest ih => exact (hf x a h).trans (ih (f x a) (hf x a h).tidy)

theorem addNode_grown (h : g.Tidy) (n : ScriptNode) : Grown g (g.addNode n).2 := by
  refine ⟨h.addNode n, fun k m hm => ?_, fun a b _ _ => Graph.Linked.congr (h.addNode_links n) a b⟩
  rw [h.node?_addNode, if_neg]
  · exact hm
  · rintro rfl
    rw [h.addNode_fresh n] at hm
    cases hm

theorem Grown.rewire {w : Working} (h : Grown g w.graph) {source sink : PortRef}
    (hs : g.contains source.node = false) : Grown g (rewire w source sink).graph := by
  unfold Expansion.rewire
  cases hc : w.graph.connect source sink with
  | error e => exact h
  | ok r =>
      obtain ⟨s, t, role, hcheck, hl⟩ := Graph.connect_linked h.tidy hc
      refine ⟨h.tidy.connect hc, fun k n hn => ?_, fun a b ha hb => ?_⟩
      · exact (Graph.node?_congr (Graph.connect_slots hc) k).trans (h.kept k n hn)
      · refine (hl a b).trans ((or_iff_right ?_).trans (h.linked a b ha hb))
        rintro ⟨rfl, rfl⟩
        obtain ⟨_, _, _, _, _, _, _, _, _, ⟨rfl, rfl⟩ | ⟨rfl, rfl⟩⟩ := Graph.checkLink_cases hcheck
        · rw [hs] at ha
          cases ha
        · rw [hs] at hb
          cases hb

theorem feedPort_grown (site copy : NodeId) (x : Expansion) (p : UInt16 × Port) (h : x.work.graph.Tidy) :
    Grown x.work.graph (feedPort site copy x p).work.graph := by
  rw [feedPort]
  cases feeder? p.2 with
  | none => exact .refl h
  | some f =>
      refine Grown.rewire (w := (x.synthesize f.1 site).2.work) (addNode_grown h f.1) ?_
      rw [Graph.contains]
      exact congrArg Option.isSome (h.addNode_fresh f.1)

theorem foldl_inspect (copy : NodeId) (ports : List (UInt16 × Port)) (x : Expansion) :
    (ports.foldl (fun x p => x.inspect ⟨copy, p.1⟩) x).work.graph = x.work.graph ∧
      (ports.foldl (fun x p => x.inspect ⟨copy, p.1⟩) x).stats = x.stats := by
  induction ports generalizing x with
  | nil => exact ⟨rfl, rfl⟩
  | cons p rest ih => exact ih (x.inspect ⟨copy, p.1⟩)

theorem feedCopy_grown (site : NodeId) (x : Expansion) (copy : NodeId) (h : x.work.graph.Tidy) :
    Grown x.work.graph (feedCopy site x copy).work.graph := by
  unfold feedCopy
  split
  · exact .refl h
  · split
    · exact .refl h
    · extract_lets inputs unlinked
      have hi := (foldl_inspect copy inputs x).1
      have hf := Grown.foldl (feedPort site copy) (feedPort_grown site copy) unlinked
        (inputs.foldl (fun x p => x.inspect ⟨copy, p.1⟩) x) (by rw [hi]; exact h)
      rwa [hi] at hf

theorem removeNodes_linked (w : Working) (ids : List NodeId) (h : w.graph.Tidy) :
    (removeNodes w ids).graph.Tidy ∧ ∀ a b, a.node ∉ ids → b.node ∉ ids →
      ((removeNodes w ids).graph.Linked a b ↔ w.graph.Linked a b) := by
  induction ids generalizing w with
  | nil => exact ⟨h, fun _ _ _ _ => .rfl⟩
  | cons id rest ih =>
      obtain ⟨htidy, hl⟩ := ih (w.removeNode id) (h.removeNode id)
      refine ⟨htidy, fun a b ha hb => ?_⟩
      obtain ⟨ha, ha'⟩ := not_or.mp (mt List.mem_cons.mpr ha)
      obtain ⟨hb, hb'⟩ := not_or.mp (mt List.mem_cons.mpr hb)
      refine (hl a b ha' hb').trans ⟨?_, ?_⟩
      · rintro ⟨l, hl, hs, ht⟩
        exact ⟨l, ((h.mem_links_removeNode id).mp hl).1, hs, ht⟩
      · rintro ⟨l, hl, rfl, rfl⟩
        exact ⟨l, (h.mem_links_removeNode id).mpr ⟨hl, fun _ => ⟨ha, hb⟩⟩, rfl, rfl⟩

/-- A node that is still there once the body has taken the place of the instance. -/
def Remains (g : ScriptGraph) (id : NodeId) (copies : List NodeId) (k : NodeId) : Prop :=
  k ≠ id ∧ ∀ side, k ∉ tunnelsOf g copies side

theorem Paired.not_remains {id : NodeId} (h : Paired g id copies p q) :
    ¬ Remains g id copies p.node ∧ ¬ Remains g id copies q.node := by
  obtain ⟨_, _, _, _, _, _, _, ⟨hp, hq⟩ | ⟨hp, hq⟩⟩ := h
  · exact ⟨fun hr => hr.1 hp, fun hr => hr.2 _ hq⟩
  · exact ⟨fun hr => hr.2 _ hp, fun hr => hr.1 hq⟩

theorem connectBody_linked {env : Env} (hdebug : env.options.debugInstrumentation = false) (x : Expansion)
    (hfits : s.Fits g copies) (h : Halfway g s.id copies x.work.graph)
    (hq : (connectBody env x s copies).work.diagnostics = x.work.diagnostics) :
    (connectBody env x s copies).work.graph.Tidy ∧
      (∀ d p, g.PortAt d p → Remains g s.id copies p.node →
        (connectBody env x s copies).work.graph.PortAt d p) ∧
      ∀ a b, g.contains a.node = true → g.contains b.node = true →
        Remains g s.id copies a.node → Remains g s.id copies b.node →
          ((connectBody env x s copies).work.graph.Linked a b ↔
            Chain x.work.graph.Linked (Paired g s.id copies) a b) := by
  -- Joining turns chains into links; feeding copies and removing tunnels leave those of the other
  -- nodes alone.
  let joined := s.node.indexed.foldl (joinPort env s) x
  let fed := copies.foldl (feedCopy s.id) joined
  have hbody : (connectBody env x s copies).work =
      removeNodes fed.work (s.input.toList ++ s.output.toList ++ [s.id]) := by
    rw [connectBody]
    simp only [onWork, foldl_removeTunnel, removeNodes, List.foldl_append, List.foldl_cons,
      List.foldl_nil, fed, joined]
  rw [hbody, removeNodes_diagnostics] at hq
  have hjoin : Edits s.id x.work joined.work := (Moves.foldl (joinPort env s) (joinPort_moves env s) _ x).2
  have hfeed : Edits s.id joined.work fed.work :=
    (Moves.foldl (feedCopy s.id) feedCopy_moves copies joined).2
  obtain ⟨hhalf, hchain⟩ := foldl_joinPort_linked hdebug s.node.indexed x h
    (fun r hr => (hfits.mem_pairs.mp hr).boundary) hfits.pairs_distinct (hjoin.quiet hfeed hq).1
  have hgrown : Grown joined.work.graph fed.work.graph :=
    Grown.foldl (feedCopy s.id) (feedCopy_grown s.id) copies joined hhalf.tidy
  obtain ⟨htidy, hl⟩ := removeNodes_linked fed.work (s.input.toList ++ s.output.toList ++ [s.id])
    hgrown.tidy
  rw [hbody]
  have hgone {k : NodeId} (hk : Remains g s.id copies k) : k ∉ s.input.toList ++ s.output.toList ++
      [s.id] := by
    simp only [List.mem_append, Option.mem_toList, List.mem_singleton, ← hfits.input, ← hfits.output]
    rintro ((ht | ht) | ht)
    · exact hk.2 _ ht
    · exact hk.2 _ ht
    · exact hk.1 ht
  have hcontains {k : NodeId} (hk : g.contains k = true) : joined.work.graph.contains k = true := by
    obtain ⟨n, hn⟩ := Graph.contains_iff.mp hk
    obtain ⟨n', hn', _⟩ := hhalf.same.node? hn
    exact Graph.contains_iff.mpr ⟨n', hn'⟩
  have hpairs : (fun p q => (p, q) ∈ s.node.indexed.filterMap (s.pair? g)) = Paired g s.id copies :=
    funext fun p => funext fun q => propext hfits.mem_pairs
  refine ⟨htidy, fun d p hp hrp => ?_, fun a b ha hb hra hrb => ?_⟩
  · obtain ⟨port, hport, hd⟩ := hhalf.same.portAt.mpr hp
    obtain ⟨m, hm, hi⟩ := Option.bind_eq_some_iff.mp hport
    refine ⟨port, ?_, hd⟩
    rw [Graph.port?, node?_removeNodes, if_neg (hgone hrp), hgrown.kept _ m hm]
    exact hi
  rw [hl a b (hgone hra) (hgone hrb), hgrown.linked a b (hcontains ha) (hcontains hb), ← hpairs]
  refine (hchain a b fun r hr => ?_).symm
  obtain ⟨hp, hq⟩ := (hfits.mem_pairs.mp hr).not_remains
  exact ⟨fun he => hq (he ▸ hra), fun he => hp (he ▸ hrb)⟩

/-- Every link leads from an output port to an input port of another node. -/
def Proper (g : ScriptGraph) : Prop :=
  ∀ a b, g.Linked a b → g.PortAt .output a ∧ g.PortAt .input b ∧ a.node ≠ b.node

theorem resolvePorts_kept (resolved : Option PinType) (ids : List NodeId) (h : g.Tidy) :
    (resolvePorts resolved ids g).Tidy ∧ (resolvePorts resolved ids g).links = g.links :=
  resolvePorts_induction (P := fun g' => g'.Tidy ∧ g'.links = g.links) resolved ⟨h, rfl⟩
    fun _ id _ f _ hg =>
    ⟨hg.1.modifyNode id f, hg.2⟩

theorem tunnelsOf_congr {g' : ScriptGraph} (h : g'.SameOutline g) (ids : List NodeId) (side : TunnelSide) :
    tunnelsOf g' ids side = tunnelsOf g ids side := by
  refine List.filter_congr fun k _ => ?_
  cases hn : g.node? k with
  | none =>
      have hn' : g'.node? k = none := by simpa [hn] using h k
      rw [hn']
  | some n =>
      obtain ⟨n', hn', ho⟩ := h.node? hn
      rw [hn']
      simp only [Node.kind_eq_of_outline ho]

theorem isTunnel_of_isTunnelOf {kind : NodeKind} (h : kind.isTunnelOf side = true) :
    kind.isTunnel = true := by
  cases kind with
  | tunnel => rfl
  | _ => cases h

theorem mem_tunnelsOf (h : t ∈ tunnelsOf g copies side) :
    ∃ m, g.node? t = some m ∧ m.kind.isTunnelOf side = true := by
  obtain ⟨_, ht⟩ := List.mem_filter.mp h
  cases hm : g.node? t with
  | none => simp [hm] at ht
  | some m => exact ⟨m, rfl, by simpa [hm] using ht⟩

variable {x : Expansion} {id : NodeId} {n : ScriptNode} (body : ScriptGraph)

theorem not_mem_copies (htidy : g.Tidy) {k : NodeId} {m : ScriptNode} (hm : g.node? k = some m) :
    k ∉ (g.merge body).1.copies := by
  intro hk
  rw [htidy.merge_fresh body hk] at hm
  cases hm

theorem portAt_merge (htidy : g.Tidy) (h : g.PortAt d p) :
    p.node ∉ (g.merge body).1.copies ∧ (g.merge body).2.PortAt d p := by
  obtain ⟨port, hp, hd⟩ := h
  obtain ⟨m, hm, hi⟩ := Option.bind_eq_some_iff.mp hp
  have hk := not_mem_copies body htidy hm
  exact ⟨hk, port, by rw [Graph.port?, htidy.node?_merge body hk]; exact hp, hd⟩

theorem halfway_merge (htidy : g.Tidy) (hproper : Proper g) (hn : g.node? id = some n)
    (resolved : Option PinType) :
    Halfway (g.merge body).2 id (g.merge body).1.copies
      (resolvePorts resolved (g.merge body).1.copies (g.merge body).2) := by
  obtain ⟨htidy', hlinks⟩ := resolvePorts_kept resolved (g.merge body).1.copies (htidy.merge body)
  have hid := not_mem_copies body htidy hn
  have hold {a b : PortRef}
      (hab : (resolvePorts resolved (g.merge body).1.copies (g.merge body).2).Linked a b)
      (h : a.node = id ∨ b.node = id) : g.Linked a b := by
    rcases htidy.linked_merge body ((Graph.Linked.congr hlinks a b).mp hab) with hab | ⟨ha, hb⟩
    · exact hab
    · rcases h with h | h
      · exact absurd (h ▸ ha) hid
      · exact absurd (h ▸ hb) hid
  refine ⟨htidy', outline_resolvePorts resolved _ _, fun a b hab hb => ?_, fun a b hab ha => ?_⟩
  · obtain ⟨ha, _, hne⟩ := hproper a b (hold hab (Or.inr hb))
    obtain ⟨hc, hp⟩ := portAt_merge body htidy ha
    exact ⟨hb ▸ hne, hc, hp⟩
  · obtain ⟨_, hb, hne⟩ := hproper a b (hold hab (Or.inl ha))
    obtain ⟨hc, hp⟩ := portAt_merge body htidy hb
    exact ⟨ha ▸ hne.symm, hc, hp⟩

theorem head?_eq_some_iff {l : List NodeId} (h : l.length ≤ 1) (t : NodeId) :
    t ∈ l ↔ l.head? = some t := by
  match l with
  | [] => simp
  | [k] => simp [eq_comm]
  | _ :: _ :: _ => simp at h

theorem fits_merge (htidy : g.Tidy) (hn : g.node? id = some n) (hnamed : n.WellNamed)
    (htunnels : ∀ k m, body.node? k = some m → m.kind.isTunnel = true → m.WellNamed)
    (hone : ∀ side, (tunnelsOf (g.merge body).2 (g.merge body).1.copies side).length ≤ 1) :
    (⟨id, n, body.name, (tunnelsOf (g.merge body).2 (g.merge body).1.copies .input).head?,
      (tunnelsOf (g.merge body).2 (g.merge body).1.copies .output).head?⟩ : Site).Fits
        (g.merge body).2 (g.merge body).1.copies := by
  have hid := not_mem_copies body htidy hn
  refine ⟨(htidy.node?_merge body hid).trans hn, hnamed, hid, head?_eq_some_iff (hone .input),
    head?_eq_some_iff (hone .output), fun side t ht => ?_⟩
  obtain ⟨m, hm, hk⟩ := mem_tunnelsOf ht
  refine ⟨m, hm, ?_⟩
  rcases Graph.merge_cases g body t m hm with hold | ⟨k, m', hm', _, he⟩
  · rw [htidy.merge_fresh body (mem_copies_of_tunnel ht)] at hold
    cases hold
  · have hkind : m.kind = m'.kind := by rw [he]
    have hports : m.ports = m'.ports := by rw [he]
    obtain ⟨hfew, hdistinct⟩ := htunnels k m' (Graph.mem_nodes.mp hm') (hkind ▸ isTunnel_of_isTunnelOf hk)
    exact ⟨hports ▸ hfew, hports ▸ hdistinct⟩

/-- An instance that gives way to its body without a word is connected to it. -/
theorem inline_quiet {env : Env} {resolved : Option PinType}
    (hq : (inline env x id n body resolved).work.diagnostics = x.work.diagnostics) :
    (∀ side, (tunnelsOf (x.work.graph.merge body).2 (x.work.graph.merge body).1.copies side).length ≤ 1) ∧
      inline env x id n body resolved = connectBody env (entered x id body resolved)
        ⟨id, n, body.name, (tunnelsOf (x.work.graph.merge body).2 (x.work.graph.merge body).1.copies
          .input).head?,
          (tunnelsOf (x.work.graph.merge body).2 (x.work.graph.merge body).1.copies .output).head?⟩
        (x.work.graph.merge body).1.copies := by
  have hloud (log : List Diagnostic) (d : Diagnostic) : log ++ [d] ≠ log := by simp
  by_cases hd : env.options.maxExpansionDepth ≤ x.work.provenance.depth id
  · simp only [inline, hd, if_true] at hq
    exact absurd hq (hloud _ _)
  by_cases hl : env.options.maxExpandedNodes < (x.work.graph.merge body).2.nodeCount
  · simp only [inline, hd, hl, if_false, if_true] at hq
    exact absurd hq (hloud _ _)
  rw [inline_eq env x id n body resolved (by omega) (by omega)] at hq ⊢
  have hsame : (resolvedIn x.work id body resolved).graph.SameOutline (x.work.graph.merge body).2 :=
    outline_resolvePorts resolved _ _
  simp only [bodyTunnels, tunnelsOf_congr hsame] at hq ⊢
  split at hq
  · simp only [onWork, removeNodes_diagnostics] at hq
    exact absurd hq (hloud _ _)
  · next hone =>
      rw [if_neg hone]
      refine ⟨fun side => ?_, rfl⟩
      cases side <;> omega

theorem contains_of_portAt (h : g.PortAt d p) : g.contains p.node = true := by
  obtain ⟨port, hp, _⟩ := h
  obtain ⟨m, hm, _⟩ := Option.bind_eq_some_iff.mp hp
  exact Graph.contains_iff.mpr ⟨m, hm⟩

theorem chain_farEnds (h : g.Tidy) (ha : g.PortAt .output p) :
    Chain (fun s t => t ∈ g.farEnds s) (Paired g id copies) p q ↔
      Chain g.Linked (Paired g id copies) p q := by
  have hfar (s t : PortRef) (hs : g.PortAt .output s) : t ∈ g.farEnds s ↔ g.Linked s t := by
    obtain ⟨port, hs, hd⟩ := hs
    exact Graph.mem_farEnds_output h.unthreaded hs hd
  have hout (s t : PortRef) (hp : Paired g id copies s t) : g.PortAt .output t := hp.boundary.down
  constructor
  · exact fun hc => hc.mono ha hout (fun s t hs => (hfar s t hs).mp) fun _ _ hp => hp
  · exact fun hc => hc.mono ha hout (fun s t hs => (hfar s t hs).mpr) fun _ _ hp => hp

/-- Inlining an instance preserves every connection: of the ports that remain, two are linked afterwards
if and only if a chain of links led from one to the other, through the ports of the instance and of the
tunnels of its body that belong together. The graph must not have been read with links at vacant ids. -/
theorem expandInstance_preserves_links (env : Env) (macros : MacroLibrary) (x : Expansion)
    (id : NodeId) (n : ScriptNode) (body : ScriptGraph) (resolved : Option PinType) (map : CloneMap)
    (g : ScriptGraph) (hhalted : x.halted = false) (hn : x.work.graph.node? id = some n)
    (hbody : body? macros n.kind = some (body, resolved)) (htidy : x.work.graph.Tidy)
    (hproper : Proper x.work.graph) (hnamed : n.WellNamed)
    (htunnels : ∀ k m, body.node? k = some m → m.kind.isTunnel = true → m.WellNamed)
    (hdebug : env.options.debugInstrumentation = false)
    (hquiet : (expandInstance env macros x id).work.diagnostics = x.work.diagnostics)
    (hmerge : x.work.graph.merge body = (map, g)) (a b : PortRef) (ha : g.PortAt .output a)
    (hb : g.PortAt .input b) (hra : Remains g id map.copies a.node)
    (hrb : Remains g id map.copies b.node) :
    (b ∈ (expandInstance env macros x id).work.graph.farEnds a ↔
      Chain (fun s t => t ∈ g.farEnds s) (Paired g id map.copies) a b) ∧
    (a ∈ (expandInstance env macros x id).work.graph.farEnds b ↔
      Chain (fun s t => t ∈ g.farEnds s) (Paired g id map.copies) a b) := by
  have hexpand : expandInstance env macros x id = inline env x id n body resolved := by
    simp [expandInstance, hhalted, hn, hbody]
  rw [hexpand] at hquiet ⊢
  obtain ⟨hone, hinline⟩ := inline_quiet body hquiet
  rw [hinline] at hquiet ⊢
  have hfits := fits_merge body htidy hn hnamed htunnels hone
  obtain ⟨hafter, hports, hl⟩ := connectBody_linked hdebug (entered x id body resolved) hfits
    (halfway_merge body htidy hproper hn resolved) hquiet
  have hlinked : (entered x id body resolved).work.graph.Linked = g.Linked := by
    obtain ⟨_, hlinks⟩ := resolvePorts_kept resolved (x.work.graph.merge body).1.copies (htidy.merge body)
    exact funext fun a => funext fun b => propext ((Graph.Linked.congr hlinks a b).trans (by rw [hmerge]))
  have hgtidy : g.Tidy := by
    have h := htidy.merge body
    rwa [hmerge] at h
  simp only [hmerge] at hafter hports hl ⊢
  obtain ⟨pa, hpa, hda⟩ := hports .output a ha hra
  obtain ⟨pb, hpb, hdb⟩ := hports .input b hb hrb
  rw [Graph.mem_farEnds_output hafter.unthreaded hpa hda,
    Graph.mem_farEnds_input hafter.unthreaded hpb hdb,
    hl a b (contains_of_portAt ha) (contains_of_portAt hb) hra hrb, hlinked, chain_farEnds hgtidy ha]
  exact ⟨.rfl, .rfl⟩

/-- A body whose input tunnel is wired straight to its output tunnel. -/
def passBody : ScriptGraph where
  name := "pass"
  slots := [some { kind := .tunnel .input, title := "Inputs", ports := [.execOut "in"] },
    some { kind := .tunnel .output, title := "Outputs", ports := [.execIn "out"], order := 1 }]
  links := [⟨0, ⟨0, 0⟩, ⟨1, 0⟩, .control⟩]
  linkBound := 1
  nextOrder := 2

def passInstance : ScriptNode :=
  { kind := .composite passBody, title := "pass", ports := [.execIn "in", .execOut "out"], order := 1 }

/-- A function that does nothing but pass through such a body. -/
def passThrough : Expansion where
  work :=
    { function := "f"
      role := .function
      sourceGraph := "f"
      graph :=
        { name := "f"
          slots := [some (ScriptNode.entry "f"), some passInstance,
            some { ScriptNode.result with order := 2 }]
          links := [⟨1, ⟨1, 1⟩, ⟨2, 0⟩, .control⟩, ⟨0, ⟨0, 0⟩, ⟨1, 0⟩, .control⟩]
          linkBound := 2
          nextOrder := 3 } }

theorem passThrough_proper : Proper passThrough.work.graph := by
  rintro a b ⟨l, hl, rfl, rfl⟩
  rcases List.mem_cons.mp hl with rfl | hl
  · exact ⟨⟨.execOut "out", rfl, rfl⟩, ⟨.execIn "exec", rfl, rfl⟩, by decide⟩
  · rcases List.mem_singleton.mp hl with rfl
    exact ⟨⟨.execOut "then", rfl, rfl⟩, ⟨.execIn "in", rfl, rfl⟩, by decide⟩

theorem passThrough_tidy : passThrough.work.graph.Tidy :=
  ⟨rfl, List.nodup_nil, nofun, by decide, by decide⟩

theorem passBody_tunnels (k : NodeId) (m : ScriptNode) (hm : passBody.node? k = some m) : m.WellNamed := by
  match k with
  | 0 => cases hm; decide
  | 1 => cases hm; decide
  | k + 2 => simp [Graph.node?, passBody] at hm

theorem passThrough_tunnels (side : TunnelSide) :
    tunnelsOf (passThrough.work.graph.merge passBody).2
      (passThrough.work.graph.merge passBody).1.copies side =
      match side with
      | .input => [3]
      | .output => [4] := by
  cases side <;> cbv

theorem passThrough_chain : Chain (fun s t => t ∈ (passThrough.work.graph.merge passBody).2.farEnds s)
    (Paired (passThrough.work.graph.merge passBody).2 1 (passThrough.work.graph.merge passBody).1.copies)
    ⟨0, 0⟩ ⟨2, 0⟩ := by
  have hentry : (passThrough.work.graph.merge passBody).2.farEnds ⟨0, 0⟩ = [⟨1, 0⟩] := by cbv
  have hbody : (passThrough.work.graph.merge passBody).2.farEnds ⟨3, 0⟩ = [⟨4, 0⟩] := by cbv
  have hexit : (passThrough.work.graph.merge passBody).2.farEnds ⟨1, 1⟩ = [⟨2, 0⟩] := by cbv
  refine .through (hentry ▸ List.mem_singleton_self _) (q := ⟨3, 0⟩) ?_
    (.through (hbody ▸ List.mem_singleton_self _) (q := ⟨1, 1⟩) ?_
      (.link (hexit ▸ List.mem_singleton_self _)))
  · refine ⟨.execIn "in", .execOut "in", by cbv, by cbv, rfl, rfl, rfl, Or.inl ⟨rfl, ?_⟩⟩
    rw [passThrough_tunnels]
    exact List.mem_singleton_self _
  · refine ⟨.execIn "out", .execOut "out", by cbv, by cbv, rfl, rfl, rfl, Or.inr ⟨?_, rfl⟩⟩
    rw [passThrough_tunnels]
    exact List.mem_singleton_self _

theorem passThrough_links :
    Chain (fun s t => t ∈ (passThrough.work.graph.merge passBody).2.farEnds s)
      (Paired (passThrough.work.graph.merge passBody).2 1 (passThrough.work.graph.merge passBody).1.copies)
      ⟨0, 0⟩ ⟨2, 0⟩ ∧
    (expandInstance {} ∅ passThrough 1).work.diagnostics = passThrough.work.diagnostics ∧
    ⟨2, 0⟩ ∈ (expandInstance {} ∅ passThrough 1).work.graph.farEnds ⟨0, 0⟩ := by
  have hquiet : (expandInstance {} ∅ passThrough 1).work.diagnostics =
      passThrough.work.diagnostics := by cbv
  have hremains (k : NodeId) (hk : k ≠ 1 ∧ k ≠ 3 ∧ k ≠ 4) :
      Remains (passThrough.work.graph.merge passBody).2 1
      (passThrough.work.graph.merge passBody).1.copies k := by
    refine ⟨hk.1, fun side => ?_⟩
    rw [passThrough_tunnels]
    cases side <;> simp [hk]
  refine ⟨passThrough_chain, hquiet, ?_⟩
  exact (expandInstance_preserves_links {} ∅ passThrough 1 passInstance passBody none _ _ rfl rfl
    rfl passThrough_tidy
    passThrough_proper (by decide) (fun k m hm _ => passBody_tunnels k m hm) rfl hquiet rfl ⟨0, 0⟩ ⟨2, 0⟩
    ⟨.execOut "then", by cbv, rfl⟩ ⟨.execIn "exec", by cbv, rfl⟩ (hremains 0 (by decide))
    (hremains 2 (by decide))).1.mpr passThrough_chain

/-- A body with a call in front of its output tunnel. -/
def pushBody : ScriptGraph where
  name := "push"
  slots := [some { kind := .tunnel .output, title := "Outputs", ports := [.execIn "out"] },
    some { ScriptNode.call "push" with order := 1 }]
  links := [⟨0, ⟨1, 1⟩, ⟨0, 0⟩, .control⟩]
  linkBound := 1
  nextOrder := 2

/-- A graph that is read with a link from an instance of such a body to a vacant id. -/
def sluiceArena : Graph.Arena NodeKind :=
  ⟨[{ kind := .composite pushBody, title := "push", ports := [.execOut "out"] }], [1],
    [some ⟨0, ⟨0, 0⟩, ⟨1, 0⟩, .control⟩]⟩

def sluice : Expansion where
  work :=
    { function := "f"
      role := .function
      sourceGraph := "f"
      graph := ((sluiceArena.toGraph "f" 1).addNode (ScriptNode.call "knock")).2 }

/-- Once a node took the vacant id, the link to it is not listed at the instance, and the chain through the
instance is lost with it. -/
theorem sluice_unlinked :
    sluiceArena.check = .ok () ∧ sluice.work.graph.torn = false ∧ Proper sluice.work.graph ∧
    (expandInstance {} ∅ sluice 0).work.diagnostics = sluice.work.diagnostics ∧
    Chain (sluice.work.graph.merge pushBody).2.Linked
      (Paired (sluice.work.graph.merge pushBody).2 0 (sluice.work.graph.merge pushBody).1.copies)
        ⟨3, 1⟩ ⟨1, 0⟩ ∧
    (expandInstance {} ∅ sluice 0).work.graph.contains 1 = true ∧
      (expandInstance {} ∅ sluice 0).work.graph.contains 3 = true ∧
    ⟨1, 0⟩ ∉ (expandInstance {} ∅ sluice 0).work.graph.farEnds ⟨3, 1⟩ ∧
    ⟨3, 1⟩ ∉ (expandInstance {} ∅ sluice 0).work.graph.farEnds ⟨1, 0⟩ := by
  have htunnels : tunnelsOf (sluice.work.graph.merge pushBody).2
      (sluice.work.graph.merge pushBody).1.copies .output =
      [2] := by cbv
  have hproper : Proper sluice.work.graph := by
    rintro a b ⟨l, hl, rfl, rfl⟩
    cases List.mem_singleton.mp hl
    exact ⟨⟨.execOut "out", rfl, rfl⟩, ⟨.execIn "exec", rfl, rfl⟩, by decide⟩
  have hlinks : (sluice.work.graph.merge pushBody).2.links =
      [⟨1, ⟨3, 1⟩, ⟨2, 0⟩, .control⟩, ⟨0, ⟨0, 0⟩, ⟨1, 0⟩, .control⟩] := by cbv
  refine ⟨by decide, by decide, hproper, by cbv, ?_, by cbv, by cbv, ?_, ?_⟩
  · refine .through (p := ⟨2, 0⟩) (q := ⟨0, 0⟩) ⟨_, hlinks ▸ List.mem_cons_self, rfl, rfl⟩ ?_
      (.link ⟨_, hlinks ▸ List.mem_cons_of_mem _ List.mem_cons_self, rfl, rfl⟩)
    refine ⟨.execIn "out", .execOut "out", by cbv, by cbv, rfl, rfl, rfl, Or.inr ⟨?_, rfl⟩⟩
    exact htunnels ▸ List.mem_singleton_self _
  · have hpush : (expandInstance {} ∅ sluice 0).work.graph.farEnds ⟨3, 1⟩ = [] := by cbv
    exact hpush ▸ List.not_mem_nil
  · have hknock : (expandInstance {} ∅ sluice 0).work.graph.farEnds ⟨1, 0⟩ = [] := by cbv
    exact hknock ▸ List.not_mem_nil

end VisualScript.Expansion
