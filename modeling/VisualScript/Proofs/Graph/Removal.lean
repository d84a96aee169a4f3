import VisualScript.Proofs.Graph.Liveness

namespace VisualScript.Graph

variable {κ : Type} {g g' : Graph κ} {policy : PrunePolicy κ} {roots : List NodeId}
    {stays : NodeId → Bool} {id : NodeId}

/-- What is left of a graph when only some of its nodes stay: these nodes, and the links between them. -/
structure Leaves (g : Graph κ) (stays : NodeId → Bool) (g' : Graph κ) : Prop where
  node? : ∀ k, g'.node? k = if stays k then g.node? k else none
  links : g'.links = g.links.filter fun l => stays l.source.node && stays l.target.node

theorem Sound.leaves_removeNode (h : g.Sound) (id : NodeId) :
    g.Leaves (fun k => k ≠ id) (g.removeNode id) where
  node? k := by
    rw [node?_removeNode]
    by_cases hk : k = id <;> simp [hk]
  links := by
    rw [Graph.removeNode, h.tidy.unthreaded]
    cases hc : g.contains id with
    | true => simp
    | false =>
        -- No link could be at a node that is not there.
        have hvacant {k : NodeId} (hk : g.contains k = true) : k ≠ id := by
          rintro rfl
          cases hk.symm.trans hc
        refine (List.filter_eq_self.mpr fun l hl => ?_).symm
        obtain ⟨hs, ht⟩ := h.contains_ends hl
        simp [hvacant hs, hvacant ht]

theorem Leaves.congr (h : g.Leaves stays g') (hsound : g.Sound) {stays' : NodeId → Bool}
    (hstays : ∀ k, g.contains k = true → stays k = stays' k) : g.Leaves stays' g' where
  node? k := by
    rw [h.node?]
    cases hn : g.node? k with
    | none => simp
    | some n => rw [hstays k (contains_iff.mpr ⟨n, hn⟩)]
  links := by
    rw [h.links]
    refine List.filter_congr fun l hl => ?_
    obtain ⟨hs, ht⟩ := hsound.contains_ends hl
    rw [hstays _ hs, hstays _ ht]

theorem Leaves.trans {stays' : NodeId → Bool} {g'' : Graph κ} (h : g.Leaves stays g')
    (h' : g'.Leaves stays' g'') :
    g.Leaves (fun k => stays k && stays' k) g'' where
  node? k := by
    rw [h'.node?, h.node?]
    cases stays k <;> cases stays' k <;> rfl
  links := by
    rw [h'.links, h.links, List.filter_filter]
    refine List.filter_congr fun l _ => ?_
    cases stays l.source.node <;> cases stays l.target.node <;> simp

theorem Sound.foldl_removeNode (h : g.Sound) (ids : List NodeId) :
    (ids.foldl Graph.removeNode g).Sound ∧ g.Leaves (fun k => k ∉ ids) (ids.foldl Graph.removeNode g) := by
  induction ids generalizing g with
  | nil => exact ⟨h, fun k => by simp, by simp⟩
  | cons id rest ih =>
      obtain ⟨hsound, hleaves⟩ := ih (h.removeNode id)
      refine ⟨hsound, ?_⟩
      have hboth := (h.leaves_removeNode id).trans hleaves
      have hstays : (fun k => decide (k ≠ id) && decide (k ∉ rest)) =
          fun k => decide (k ∉ id :: rest) := by
        funext k
        simp
      rwa [hstays] at hboth

section

variable (h : g.Leaves stays g')
include h

theorem Leaves.node?_eq_some {n : Node κ} :
    g'.node? id = some n ↔ stays id = true ∧ g.node? id = some n := by
  rw [h.node?]
  cases stays id <;> simp

theorem Leaves.leads {role : Role} {a b : NodeId} :
    g'.Leads role a b ↔ g.Leads role a b ∧ stays a = true ∧ stays b = true := by
  simp only [Leads, h.links, List.mem_filter, Bool.and_eq_true]
  constructor
  · rintro ⟨l, ⟨hl, hs, ht⟩, hrole, rfl, rfl⟩
    exact ⟨⟨l, hl, hrole, rfl, rfl⟩, hs, ht⟩
  · rintro ⟨⟨l, hl, hrole, rfl, rfl⟩, hs, ht⟩
    exact ⟨l, ⟨hl, hs, ht⟩, hrole, rfl, rfl⟩

theorem Leaves.contains : g'.contains id = true ↔ stays id = true ∧ g.contains id = true := by
  simp only [contains_iff, h.node?_eq_some, exists_and_left]

theorem Leaves.reached (hr : g'.Reached roots id) : g.Reached roots id := by
  induction hr with
  | root hr hc => exact .root hr (h.contains.mp hc).2
  | step _ hl hb ih => exact .step ih (h.leads.mp hl).1 (h.contains.mp hb).2

theorem Leaves.kept (hk : g'.Kept policy roots id) : g.Kept policy roots id := by
  rcases hk with hr | ⟨n, hn, hkeeps⟩
  · exact Or.inl (h.reached hr)
  · exact Or.inr ⟨n, (h.node?_eq_some.mp hn).2, hkeeps⟩

theorem Leaves.reached_again (hstays : ∀ {k}, g.Reached roots k → stays k = true)
    (hr : g.Reached roots id) : g'.Reached roots id := by
  induction hr with
  | root hr hc => exact .root hr (h.contains.mpr ⟨hstays (.root hr hc), hc⟩)
  | step ha hl hb ih =>
      have hlast := hstays (.step ha hl hb)
      exact .step ih (h.leads.mpr ⟨hl, hstays ha, hlast⟩) (h.contains.mpr ⟨hlast, hb⟩)

theorem Leaves.kept_again (hstays : ∀ {k}, g.Kept policy roots k → stays k = true)
    (hk : g.Kept policy roots id) : g'.Kept policy roots id := by
  refine hk.imp (h.reached_again fun hr => hstays (Or.inl hr)) ?_
  rintro ⟨n, hn, hkeeps⟩
  exact ⟨n, h.node?_eq_some.mpr ⟨hstays hk, hn⟩, hkeeps⟩

theorem Leaves.found_again (hstays : ∀ {k}, g.Found policy roots k → stays k = true)
    (hf : g.Found policy roots id) : g'.Found policy roots id := by
  have hkept {k : NodeId} (hk : g.Kept policy roots k) : g'.Kept policy roots k :=
    h.kept_again (fun hk => hstays (Or.inl hk)) hk
  have hpure {k : NodeId} (hk : stays k = true) (hp : g.Pure policy.isPure k) : g'.Pure policy.isPure k :=
    hp.imp fun n hn => ⟨h.node?_eq_some.mpr ⟨hk, hn.1⟩, hn.2⟩
  rcases hf with hk | ⟨hp, k, hk, himpure, hfeeds⟩
  · exact Or.inl (hkept hk)
  · have hreader : g'.Impure policy.isPure k :=
      himpure.imp fun n hn => ⟨h.node?_eq_some.mpr ⟨hstays (Or.inl hk), hn.1⟩, hn.2⟩
    have hneeded {a : NodeId} (hp : g.Pure policy.isPure a)
      (hfeeds : g.Feeds (g.Loose policy roots) a k) : stays a = true :=
      hstays (Or.inr ⟨hp, k, hk, himpure, hfeeds⟩)
    refine Or.inr ⟨hpure (hneeded hp hfeeds) hp, k, hkept hk, hreader, ?_⟩
    induction hfeeds with
    | link hl => exact .link (h.leads.mpr ⟨hl, hneeded hp (.link hl), hstays (Or.inl hk)⟩)
    | through hl hm hrest ih =>
        have hmid := hneeded hm.1 hrest
        refine .through (h.leads.mpr ⟨hl, hneeded hp (.through hl hm hrest), hmid⟩) ⟨hpure hmid hm.1, ?_⟩
          (ih hm.1 hk himpure hreader hneeded)
        exact fun hc => hm.2 (h.kept hc)

end

theorem Found.contains (h : g.Found policy roots id) : g.contains id = true := by
  rcases h with (hr | ⟨n, hn, -⟩) | ⟨hpure, -⟩
  · exact hr.contains
  · exact contains_iff.mpr ⟨n, hn⟩
  · exact hpure.contains

theorem Sound.contains_liveSet (h : g.Sound) :
    (g.liveSet policy roots).contains id = true ↔ g.Found policy roots id :=
  contains_liveSet_iff (bilateral_of_unthreaded h.tidy.unthreaded .control)
    (bilateral_of_unthreaded h.tidy.unthreaded .data)

theorem liveStrays_of_unthreaded (h : g.threads = none) (policy : PrunePolicy κ) (roots : List NodeId) :
    g.liveStrays policy roots = false := by
  have hstrays (role : Role) (d : Direction) : g.strays role d = fun _ => false := by
    funext id
    rw [strays, h]
    rfl
  simp [Graph.liveStrays, hstrays]

end VisualScript.Graph
