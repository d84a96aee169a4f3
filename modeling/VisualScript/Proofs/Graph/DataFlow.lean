import VisualScript.Proofs.Graph.Closure
import VisualScript.Proofs.Graph.Scheduling
import VisualScript.Proofs.Graph.Tidy

namespace VisualScript.Graph

variable {κ : Type} {g : Graph κ}

/-- A link of this role from one node to another. -/
def Leads (g : Graph κ) (role : Role) (a b : NodeId) : Prop :=
  ∃ l ∈ g.links, l.role = role ∧ l.source.node = a ∧ l.target.node = b

/-- The links of a role between two nodes are found at both of them. -/
structure Bilateral (g : Graph κ) (role : Role) : Prop where
  successors : ∀ {a b : NodeId}, g.contains a = true → g.contains b = true →
    (b ∈ g.successors a role ↔ g.Leads role a b)
  predecessors : ∀ {a b : NodeId}, g.contains a = true → g.contains b = true →
    (a ∈ g.predecessors b role ↔ g.Leads role a b)

theorem bilateral_of_unthreaded (h : g.threads = none) (role : Role) : g.Bilateral role where
  successors ha _ := (mem_successors h).trans (and_iff_right ha)
  predecessors _ hb := by
    rw [mem_predecessors h, and_iff_right hb, Leads]
    simp only [and_comm]

variable {isPure : Node κ → Bool} {id : NodeId}

theorem Pure.contains (h : g.Pure isPure id) :
    g.contains id = true := contains_iff.mpr (h.imp fun _ => And.left)

theorem Impure.contains (h : g.Impure isPure id) :
    g.contains id = true := contains_iff.mpr (h.imp fun _ => And.left)

theorem Pure.not_impure (h : g.Pure isPure id) : ¬ g.Impure isPure id := by
  rintro ⟨m, hm, himpure⟩
  obtain ⟨n, hn, hpure⟩ := h
  cases hn.symm.trans hm
  exact absurd (himpure.symm.trans hpure) Bool.false_ne_true

/-- A path of data links from one node into another that goes only through such nodes. -/
inductive Feeds (g : Graph κ) (via : NodeId → Prop) : NodeId → NodeId → Prop
  | link {a b : NodeId} (h : g.Leads .data a b) : Feeds g via a b
  | through {a m b : NodeId} (h : g.Leads .data a m) (hm : via m) (hb : Feeds g via m b) : Feeds g via a b

variable {via via' : NodeId → Prop}

theorem Feeds.mono (h : ∀ m, via m → via' m) {a b : NodeId} (hf : g.Feeds via a b) : g.Feeds via' a b := by
  induction hf with
  | link hl => exact .link hl
  | through hl hm _ ih => exact .through hl (h _ hm) ih

/-- A search backward along data links finds what a path leads from, as far as the search goes. -/
theorem mem_closure_sources {all starts : List NodeId} {next : NodeId → List NodeId}
    (hnext : ∀ {a b : NodeId}, b ∈ starts ∨ via b → (a ∈ next b ∧ a ∈ all ↔ via a ∧ g.Leads .data a b))
    {x : NodeId} :
    x ∈ closure all next (starts.flatMap next) [] ↔ via x ∧ ∃ k ∈ starts, g.Feeds via x k := by
  rw [mem_closure_iff]
  constructor
  · rintro ⟨s, hs, hall, hpath⟩
    obtain ⟨k, hk, hs⟩ := List.mem_flatMap.mp hs
    induction hpath with
    | refl =>
        obtain ⟨hvia, hlink⟩ := (hnext (Or.inl hk)).mp ⟨hs, hall⟩
        exact ⟨hvia, k, hk, .link hlink⟩
    | tail _ hstep ih =>
        obtain ⟨hvia, k, hk, hfeeds⟩ := ih
        obtain ⟨hvia', hlink⟩ := (hnext (Or.inr hvia)).mp hstep
        exact ⟨hvia', k, hk, .through hlink hvia hfeeds⟩
  · rintro ⟨hvia, k, hk, hfeeds⟩
    induction hfeeds with
    | link hlink =>
        obtain ⟨hs, hall⟩ := (hnext (Or.inl hk)).mpr ⟨hvia, hlink⟩
        exact ⟨_, List.mem_flatMap.mpr ⟨_, hk, hs⟩, hall, .refl⟩
    | through hlink hm _ ih =>
        obtain ⟨s, hs, hall, hpath⟩ := ih hm hk
        exact ⟨s, hs, hall, hpath.tail ((hnext (Or.inr hm)).mpr ⟨hvia, hlink⟩)⟩

end VisualScript.Graph
