import VisualScript.Proofs.Graph.Additions
import VisualScript.Proofs.Working.Typing

namespace VisualScript

theorem Link.far_opposite (l : Link) (d : Direction) : l.far d.opposite = l.near d := by cases d <;> rfl

theorem Link.near_opposite (l : Link) (d : Direction) : l.near d.opposite = l.far d := rfl

namespace Graph

variable {κ : Type} {g g' : Graph κ} {l : Link}

/-- The link runs from an output to an input, and both have its role. -/
structure Formed (g : Graph κ) (l : Link) : Prop where
  source : ∃ p, g.port? l.source = some p ∧ p.is l.role .output = true
  target : ∃ p, g.port? l.target = some p ∧ p.is l.role .input = true

/-- Control ports are those of the type of control. -/
def TypedByRole (g : Graph κ) : Prop :=
  ∀ p port, g.port? p = some port → (port.type.isExec = true ↔ port.role = .control)

/-- The link starts at an output, which is a control output if it is a control link, and ends at an
input of its role. -/
structure Lands (g : Graph κ) (l : Link) : Prop where
  source : ∃ p, g.port? l.source = some p ∧ p.direction = .output ∧ (l.role = .control → p.role = .control)
  target : ∃ p, g.port? l.target = some p ∧ p.is l.role .input = true

/-- Ports and nodes have the same links: what is linked to a port is linked back, and the neighbours of a
node along one role are those that its ports of this role are linked to. -/
structure Concordant (g : Graph κ) : Prop where
  back : ∀ {p q : PortRef}, q ∈ g.farEnds p → p ∈ g.farEnds q
  successors : ∀ {id k : NodeId} {role : Role}, k ∈ g.successors id role ↔
    ∃ i port far, g.port? ⟨id, i⟩ = some port ∧ port.is role .output = true ∧
      far ∈ g.farEnds ⟨id, i⟩ ∧ far.node = k
  predecessors : ∀ {id k : NodeId} {role : Role}, k ∈ g.predecessors id role ↔
    ∃ i port far, g.port? ⟨id, i⟩ = some port ∧ port.is role .input = true ∧
      far ∈ g.farEnds ⟨id, i⟩ ∧ far.node = k

theorem Formed.near (h : g.Formed l) (d : Direction) :
    ∃ p, g.port? (l.near d) = some p ∧ p.is l.role d = true := by
  cases d with
  | output => exact h.source
  | input => exact h.target

theorem Formed.mem_farEnds (h : g.Formed l) (hthreads : g.threads = none) (hl : l ∈ g.links)
    (d : Direction) :
    l.far d ∈ g.farEnds (l.near d) := by
  obtain ⟨port, hp, his⟩ := h.near d
  have hd := (Port.is_iff.mp his).2
  exact (Graph.mem_farEnds hthreads hp).mpr ⟨l, hl, by rw [hd], by rw [hd]⟩

theorem mem_neighbours_of_formed (hthreads : g.threads = none) (h : ∀ l ∈ g.links, g.Formed l)
    {id k : NodeId} {role : Role} {d : Direction} : k ∈ distinct (g.neighbours id role d) ↔
      ∃ i port far, g.port? ⟨id, i⟩ = some port ∧ port.is role d = true ∧ far ∈ g.farEnds ⟨id, i⟩ ∧
        far.node = k := by
  rw [mem_neighbours hthreads]
  constructor
  · rintro ⟨-, l, hl, rfl, rfl, rfl⟩
    obtain ⟨port, hp, his⟩ := (h l hl).near d
    exact ⟨(l.near d).index, port, l.far d, hp, his, (h l hl).mem_farEnds hthreads hl d, rfl⟩
  · rintro ⟨i, port, far, hp, his, hfar, rfl⟩
    obtain ⟨hrole, hd⟩ := Port.is_iff.mp his
    obtain ⟨l, hl, hnear, rfl⟩ := (Graph.mem_farEnds hthreads hp).mp hfar
    rw [hd] at hnear ⊢
    obtain ⟨port', hp', his'⟩ := (h l hl).near d
    rw [hnear, hp] at hp'
    cases hp'
    have hc : g.contains id = true := contains_iff.mpr (exists_node_of_port? hp)
    exact ⟨hc, l, hl, (Port.is_iff.mp his').1.symm.trans hrole, by rw [hnear], rfl⟩

theorem concordant_of_formed (hthreads : g.threads = none) (h : ∀ l ∈ g.links, g.Formed l) :
    g.Concordant where
  back {p q} hq := by
    cases hp : g.port? p with
    | none =>
        rw [farEnds, edges, hp] at hq
        cases hq
    | some port =>
        obtain ⟨l, hl, rfl, rfl⟩ := (Graph.mem_farEnds hthreads hp).mp hq
        have hback := (h l hl).mem_farEnds hthreads hl port.direction.opposite
        rwa [l.far_opposite, l.near_opposite] at hback
  successors := mem_neighbours_of_formed hthreads h
  predecessors := mem_neighbours_of_formed hthreads h

theorem farEnds_recast (hthreads : g.threads = none) (f : Link → Role) (p : PortRef) :
    farEnds { g with links := g.links.map fun l => { l with role := f l } } p = g.farEnds p := by
  have hports : port? { g with links := g.links.map fun l => { l with role := f l } } p = g.port? p := rfl
  rw [farEnds, farEnds, edges, edges, hports]
  cases g.port? p with
  | none => rfl
  | some port =>
      simp only [linksAt, hthreads, List.filter_map, List.map_map]
      rfl

theorem clone_port? (g : Graph κ) {s k : NodeId} (hk : g.clone.1.copy? s = some k) (i : UInt16) :
    g.clone.2.port? ⟨k, i⟩ = g.port? ⟨s, i⟩ := by
  obtain ⟨n, order, hn, hcopy⟩ := (tidy_empty g.name).merge_copy? hk
  have hcopy : g.clone.2.node? k = some { n with order } := hcopy
  rw [port?, port?, hn, hcopy]
  rfl

theorem formed_image?_iff {l' : Link} (h : g.clone.1.image? l = some l'.bare) :
    g.clone.2.Formed l' ↔ g.Formed l := by
  have hport (d : Direction) : g.clone.2.port? (l'.near d) = g.port? (l.near d) := by
    obtain ⟨hcopy, hindex, -⟩ := CloneMap.image?_eq_some h d
    have hbare : l'.bare.near d = l'.near d := by cases d <;> rfl
    rw [hbare] at hcopy hindex
    have hend : (⟨(l'.near d).node, (l.near d).index⟩ : PortRef) = l'.near d := by rw [← hindex]
    exact hend ▸ g.clone_port? hcopy (l.near d).index
  have hrole : l'.role = l.role := (CloneMap.image?_eq_some h .output).2.2
  have hs : g.clone.2.port? l'.source = g.port? l.source := hport .output
  have ht : g.clone.2.port? l'.target = g.port? l.target := hport .input
  constructor
  · rintro ⟨hsource, htarget⟩
    exact ⟨by rwa [hs, hrole] at hsource, by rwa [ht, hrole] at htarget⟩
  · rintro ⟨hsource, htarget⟩
    exact ⟨by rwa [hs, hrole], by rwa [ht, hrole]⟩

theorem clone_formed_iff (g : Graph κ) : (∀ l ∈ g.clone.2.links, g.clone.2.Formed l) ↔
    ∀ l ∈ g.links, g.contains l.source.node = true → g.contains l.target.node = true → g.Formed l := by
  obtain ⟨new, hlinks, hnew⟩ := (tidy_empty g.name).merge_links g
  have hlinks : g.clone.2.links = new := hlinks.trans (List.append_nil _)
  have hnew {l : Link} : l ∈ new.map Link.bare ↔ ∃ l' ∈ g.links, g.clone.1.image? l' = some l :=
    hnew.mem_iff.trans List.mem_filterMap
  have hsome (l : Link) : (g.clone.1.image? l).isSome =
    (g.contains l.source.node && g.contains l.target.node) :=
    isSome_image? (merge_sources _ g) l
  rw [hlinks]
  constructor
  · intro h l hl hs ht
    obtain ⟨l', himage⟩ :=
      Option.isSome_iff_exists.mp ((hsome l).trans (Bool.and_eq_true_iff.mpr ⟨hs, ht⟩))
    obtain ⟨l'', hl'', rfl⟩ := List.mem_map.mp (hnew.mpr ⟨l, hl, himage⟩)
    exact (formed_image?_iff himage).mp (h l'' hl'')
  · intro h l hl
    obtain ⟨l', hl', himage⟩ := hnew.mp (List.mem_map_of_mem hl)
    have hends := hsome l'
    rw [himage, Option.isSome_some, eq_comm, Bool.and_eq_true] at hends
    exact (formed_image?_iff himage).mpr (h l' hl' hends.1 hends.2)

end Graph

namespace Working

theorem validateGraph_congr {w : Working} {g : ScriptGraph} (hw : w.graph.threads = none)
    (hg : g.threads = none) (hslots : g.slots = w.graph.slots)
    (hfar : ∀ p, g.farEnds p = w.graph.farEnds p) (r : Registry) :
    ({ w with graph := g }.validateGraph r).diagnostics = (w.validateGraph r).diagnostics := by
  have hunfrayed {g : ScriptGraph} (h : g.threads = none) (id : NodeId) : g.frayed id = false := by
    rw [Graph.frayed, h, Option.any_none, Bool.and_false]
  have hnodes : g.nodes = w.graph.nodes := by
    rw [Graph.nodes, Graph.nodes, Graph.stored, Graph.stored, hslots]
  have hlocate : { w with graph := g }.locate = w.locate := by
    funext node port
    cases node <;> simp only [locate, Graph.port?_congr hslots]
  have hports : { w with graph := g }.portFindings = w.portFindings := by
    funext n p
    simp only [portFindings, portIssues, inputIssue?, hlocate, hfar, Graph.port?_congr hslots,
      Graph.node?_congr hslots]
  have hfindings : { w with graph := g }.nodeFindings r = w.nodeFindings r := by
    funext n
    rw [nodeFindings, nodeFindings, hlocate, hports]
  rw [validateGraph_eq (hunfrayed hw), validateGraph_eq (hunfrayed hg), hfindings, note, note]
  exact congrArg (fun nodes => w.diagnostics ++ nodes.flatMap (w.nodeFindings r)) hnodes

/-- Where the ports fit, a data link does not start at a control output. -/
theorem formed_iff_lands {g : ScriptGraph} (htyped : g.TypedByRole)
    (hfits : ∀ p port, g.port? p = some port → Fits g p port) {l : Link} (hl : l ∈ g.links) :
    g.Formed l ↔ g.Lands l := by
  constructor
  · rintro ⟨⟨p, hp, his⟩, htarget⟩
    obtain ⟨hrole, hdirection⟩ := Port.is_iff.mp his
    exact ⟨⟨p, hp, hdirection, hrole.trans⟩, htarget⟩
  · rintro ⟨⟨p, hp, hdirection, hcontrol⟩, q, hq, hin⟩
    refine ⟨⟨p, hp, Port.is_iff.mpr ⟨?_, hdirection⟩⟩, q, hq, hin⟩
    obtain ⟨hrole, -⟩ := Port.is_iff.mp hin
    cases hkind : l.role with
    | control => exact hcontrol hkind
    | data =>
        rw [hkind] at hin hrole
        obtain ⟨-, hsettled, hpasses⟩ := (hfits _ q hq).dataInput hin
        cases hsource : p.role with
        | data => rfl
        | control =>
            have hexec := (hpasses l hl rfl p hp).isExec ((htyped _ p hp).mpr hsource) hsettled
            exact absurd (hrole.symm.trans ((htyped _ q hq).mp hexec)) (by decide)

/-- What a passed validation vouches for: what is asked of the ports of the working copy holds, and
so a link is well formed once it joins an output to an input of its role, and starts at a control
output if it is a control link. The working copy has its links between nodes as they are, and if all
of them are well formed, ports and nodes have the same links. Validation sees no more than what the
ports list. -/
theorem validateGraph_vouches (function : String) (role : FunctionRole) (g : ScriptGraph)
    (r : Registry) {w : Working} (hw : w = ofAuthored function role g) :
    ((w.validateGraph r).hasErrors = false →
      (∀ p port, w.graph.port? p = some port → Fits w.graph p port) ∧
        (w.graph.TypedByRole → ∀ l ∈ w.graph.links, w.graph.Formed l ↔ w.graph.Lands l)) ∧
    ((∀ l ∈ w.graph.links, w.graph.Formed l) ↔
      ∀ l ∈ g.links, g.contains l.source.node = true → g.contains l.target.node = true → g.Formed l) ∧
    ((∀ l ∈ w.graph.links, w.graph.Formed l) → w.graph.Concordant) ∧
    ∀ g' : ScriptGraph, g'.threads = none → g'.slots = w.graph.slots →
      (∀ p, g'.farEnds p = w.graph.farEnds p) →
      ({ w with graph := g' }.validateGraph r).diagnostics = (w.validateGraph r).diagnostics := by
  subst hw
  have hthreads : (ofAuthored function role g).graph.threads = none := g.tidy_clone.unthreaded
  refine ⟨fun hvalid => ?_, g.clone_formed_iff, Graph.concordant_of_formed hthreads,
    fun g' hg' hslots hfar =>
    validateGraph_congr hthreads hg' hslots hfar r⟩
  have hfits := fits_of_valid (Graph.shown_of_unthreaded hthreads) hvalid
  exact ⟨hfits, fun htyped l hl => formed_iff_lands htyped hfits hl⟩

/-- An entry and a call, with a link of the role from that port of the entry to the call's first. -/
def latch (i : UInt16) (role : Role) : ScriptGraph :=
  { name := "open"
    slots := [some (ScriptNode.entry "open"), some { ScriptNode.call "push" with order := 1 }]
    links := [⟨0, ⟨0, i⟩, ⟨1, 0⟩, role⟩]
    linkBound := 1
    nextOrder := 2 }

theorem graph_latch (i : UInt16) (role : Role) :
    (ofAuthored "open" .function (latch i role)).graph = latch i role := by
  cbv

theorem port?_latch {i j : UInt16} {role : Role} {port : Port}
    (h : (latch j role).port? ⟨0, i⟩ = some port) :
    i = 0 ∧ port = Port.execOut "then" := by
  have hport : [Port.execOut "then"][i.toNat]? = some port := h
  obtain ⟨hi, hport⟩ := List.getElem?_eq_some_iff.mp hport
  have hzero : i.toNat = 0 := Nat.lt_one_iff.mp hi
  refine ⟨UInt16.toNat_inj.mp hzero, ?_⟩
  simpa only [hzero, List.getElem_cons_zero] using hport.symm

theorem formed_latch_iff {i : UInt16} {role : Role} :
    (∀ l ∈ (latch i role).links, (latch i role).Formed l) ↔ i = 0 ∧ role = .control := by
  constructor
  · intro h
    obtain ⟨port, hp, his⟩ := (h ⟨0, ⟨0, i⟩, ⟨1, 0⟩, role⟩ (List.mem_singleton.mpr rfl)).source
    obtain ⟨hi, rfl⟩ := port?_latch hp
    exact ⟨hi, (Port.is_iff.mp his).1.symm⟩
  · rintro ⟨rfl, rfl⟩ l hl
    obtain rfl := List.mem_singleton.mp hl
    exact ⟨⟨_, rfl, rfl⟩, ⟨_, rfl, rfl⟩⟩

theorem typedByRole_latch (i : UInt16) (role : Role) : (latch i role).TypedByRole := by
  intro p port hp
  obtain ⟨n, hn, hport⟩ := Option.bind_eq_some_iff.mp hp
  have hports : ∀ q ∈ n.ports, q.type.isExec = true ↔ q.role = .control :=
    Graph.forall_node_of_slots (P := fun n => ∀ q ∈ n.ports, q.type.isExec = true ↔
      q.role = .control) (g := latch i role)
      (by cbv) _ n hn
  exact hports port (List.mem_of_getElem? hport)

/-- A control link between control ports passes validation and is well formed. A data link there is
not, but validation finds the same of both. -/
theorem latch_formed :
    ((ofAuthored "open" .function (latch 0 .control)).validateGraph .standard).hasErrors = false ∧
    (∀ l ∈ (ofAuthored "open" .function (latch 0 .control)).graph.links,
      (ofAuthored "open" .function (latch 0 .control)).graph.Formed l) ∧
    (ofAuthored "open" .function (latch 0 .control)).graph.Concordant ∧
    (¬ ∀ l ∈ (latch 0 .data).links, (latch 0 .data).Formed l) ∧
    ({ ofAuthored "open" .function (latch 0 .control) with graph := latch 0 .data }.validateGraph
      .standard).diagnostics =
      ((ofAuthored "open" .function (latch 0 .control)).validateGraph .standard).diagnostics := by
  obtain ⟨hvouches, -, hconcordant, hblind⟩ :=
    validateGraph_vouches "open" .function (latch 0 .control) .standard rfl
  have hvalid : ((ofAuthored "open" .function (latch 0 .control)).validateGraph
      .standard).hasErrors = false := by cbv
  have htyped : (ofAuthored "open" .function (latch 0 .control)).graph.TypedByRole := by
    rw [graph_latch]
    exact typedByRole_latch 0 .control
  have hlatch : ∀ l ∈ (ofAuthored "open" .function (latch 0 .control)).graph.links,
      (ofAuthored "open" .function (latch 0 .control)).graph.Formed l := by
    intro l hl
    rw [(hvouches hvalid).2 htyped l hl]
    rw [graph_latch] at hl ⊢
    obtain rfl := List.mem_singleton.mp hl
    exact ⟨⟨_, rfl, rfl, fun _ => rfl⟩, ⟨_, rfl, rfl⟩⟩
  refine ⟨hvalid, hlatch, hconcordant hlatch, ?_, ?_⟩
  · rw [formed_latch_iff]
    rintro ⟨-, hrole⟩
    cases hrole
  · refine hblind _ rfl ?_ fun p => ?_
    · rw [graph_latch]
      rfl
    · rw [graph_latch]
      exact Graph.farEnds_recast (g := latch 0 .control) rfl (fun _ => .data) p

/-- A link from a port that is not there is read and passes validation. The call then comes after
the entry, although no port of the entry is linked. -/
theorem latch_unformed :
    ScriptGraph.ofJson Decoder.nesting (ScriptGraph.toJson (latch 7 .control)) = .ok (latch 7 .control) ∧
    ((ofAuthored "open" .function (latch 7 .control)).validateGraph .standard).diagnostics = [] ∧
    (¬ ∀ l ∈ (ofAuthored "open" .function (latch 7 .control)).graph.links,
      (ofAuthored "open" .function (latch 7 .control)).graph.Formed l) ∧
    ¬ (ofAuthored "open" .function (latch 7 .control)).graph.Concordant := by
  rw [graph_latch, formed_latch_iff]
  refine ⟨by rfl, by cbv, fun h => absurd h.1 (by decide), fun h => ?_⟩
  have hnext : 1 ∈ (latch 7 .control).successors 0 .control := by
    have hsuccessors : (latch 7 .control).successors 0 .control = [1] := by cbv
    rw [hsuccessors]
    exact List.mem_singleton.mpr rfl
  obtain ⟨i, port, far, hp, -, hfar, -⟩ := h.successors.mp hnext
  obtain ⟨rfl, rfl⟩ := port?_latch hp
  obtain ⟨l, hl, hnear, -⟩ := (Graph.mem_farEnds rfl hp).mp hfar
  obtain rfl := List.mem_singleton.mp hl
  exact absurd hnear (by decide)

end Working

end VisualScript
