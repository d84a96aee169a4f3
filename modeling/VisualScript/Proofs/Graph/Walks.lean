import Mathlib.Algebra.BigOperators.Group.List.Lemmas
import Mathlib.Algebra.GroupWithZero.Nat
import Mathlib.Order.Lattice
import VisualScript.Graph.Order
import VisualScript.Proofs.OrderedMap

namespace VisualScript

variable {α : Type} [DecidableEq α] {after : α → List α} {before : α → α → Bool}
    {members pending done : List α} {x y : α}

def Ready (after : α → List α) (pending : List α) (x : α) : Prop := ∀ y ∈ pending, x ∉ after y

/-- The first ready member is taken again and again, until none is ready. -/
inductive Picks (after : α → List α) (before : α → α → Bool) : List α → List α → Prop
  | stop {pending : List α} (h : ∀ x ∈ pending, ¬ Ready after pending x) : Picks after before pending []
  | take {pending done : List α} {x : α} (hx : x ∈ pending) (hready : Ready after pending x)
      (hfirst : ∀ y ∈ pending, Ready after pending y → before x y = true)
      (h : Picks after before (pending.erase x) done) : Picks after before pending (x :: done)

namespace Walk

variable {w : Walk α} {degree : α → Nat}

omit [DecidableEq α] in
theorem perm_enqueue (before : α → α → Bool) (x : α) (l : List α) :
    (enqueue before x l).Perm (x :: l) := by
  induction l with
  | nil => exact .refl _
  | cons y rest ih =>
      rw [enqueue]
      split
      · exact .refl _
      · exact (ih.cons y).trans (.swap x y rest)

omit [DecidableEq α] in
theorem pairwise_enqueue
    (htrans : ∀ a b c, before a b = true → before b c = true → before a c = true)
    (htotal : ∀ a b, (before a b || before b a) = true) (x : α) {l : List α}
    (hl : l.Pairwise fun a b => before a b = true) :
    (enqueue before x l).Pairwise fun a b => before a b = true := by
  induction l with
  | nil => exact List.pairwise_singleton _ _
  | cons y rest ih =>
      obtain ⟨hy, hrest⟩ := List.pairwise_cons.mp hl
      rw [enqueue]
      split
      · next hxy =>
          refine List.pairwise_cons.mpr ⟨List.forall_mem_cons.mpr ⟨hxy, fun z hz => ?_⟩, hl⟩
          exact htrans x y z hxy (hy z hz)
      · next hxy =>
          have hyx : before y x = true := (Bool.or_eq_true_iff.mp (htotal x y)).resolve_left hxy
          refine List.pairwise_cons.mpr ⟨fun z hz => ?_, ih hrest⟩
          rcases List.mem_cons.mp ((perm_enqueue before x rest).mem_iff.mp hz) with rfl | hz
          · exact hyx
          · exact hy z hz

/-- The counters say how many links lead to each member. -/
def Counts (members : List α) (degree : α → Nat) (degrees : OrderedMap α Nat) : Prop :=
  ∀ x, degrees.get? x = if x ∈ members then some (degree x) else none

theorem Counts.congr {degrees : OrderedMap α Nat} {degree' : α → Nat} (h : Counts members degree degrees)
    (hd : ∀ x ∈ members, degree x = degree' x) : Counts members degree' degrees := by
  intro x
  rw [h x]
  split
  · next hx => rw [hd x hx]
  · rfl

theorem Counts.insert {degrees : OrderedMap α Nat} (h : Counts members degree degrees) {d : Nat}
    (hx : x ∈ members) :
    Counts members (Function.update degree x d) (degrees.insert x d) := by
  intro y
  rw [OrderedMap.get?_insert]
  by_cases hy : y = x
  · rw [hy, if_pos rfl, if_pos hx, Function.update_self]
  · rw [if_neg hy, h y, Function.update_of_ne hy]

theorem count_of_ne (h : y ≠ x) : [x].count y = 0 :=
  List.count_eq_zero.mpr fun hy => h (List.mem_singleton.mp hy)

theorem Counts.raise {degrees : OrderedMap α Nat} (h : Counts members degree degrees) (x : α) :
    Counts members (fun y => degree y + [x].count y) (raise degrees x) := by
  rw [Walk.raise, h x]
  by_cases hx : x ∈ members
  · rw [if_pos hx]
    refine (h.insert hx).congr fun y _ => ?_
    by_cases hy : y = x
    · rw [hy, Function.update_self, List.count_singleton_self]
    · rw [Function.update_of_ne hy, count_of_ne hy, Nat.add_zero]
  · rw [if_neg hx]
    refine h.congr fun y hy => ?_
    have hne : y ≠ x := fun he => hx (he ▸ hy)
    rw [count_of_ne hne, Nat.add_zero]

theorem Counts.raiseAll {degrees : OrderedMap α Nat} (h : Counts members degree degrees) (l : List α) :
    Counts members (fun y => degree y + l.count y) (l.foldl Walk.raise degrees) := by
  induction l generalizing degree degrees with
  | nil => exact h
  | cons x rest ih =>
      have hrest := ih (h.raise x)
      simp only [Nat.add_assoc, ← List.count_append] at hrest
      exact hrest

def inDegree (after : α → List α) (pending : List α) (x : α) : Nat :=
  (pending.map fun y => (after y).count x).sum

theorem inDegree_eq_zero_iff : inDegree after pending x = 0 ↔ Ready after pending x := by
  simp only [inDegree, List.sum_eq_zero_iff_forall_eq_nat, List.forall_mem_map, List.count_eq_zero, Ready]

theorem inDegree_erase (hy : y ∈ pending) (x : α) :
    inDegree after pending x = inDegree after (pending.erase y) x + (after y).count x := by
  have hperm := (List.perm_cons_erase hy).map fun z => (after z).count x
  rw [inDegree, hperm.sum_eq, List.map_cons, List.sum_cons, Nat.add_comm]
  rfl

theorem counts_start (after : α → List α) (hnodup : members.Nodup) :
    Counts members (inDegree after members)
      (members.foldl (fun degrees x => (after x).foldl raise degrees)
        (.ofList (members.map fun x => (x, 0)))) := by
  have hrun (l : List α) {degree : α → Nat} {degrees : OrderedMap α Nat}
      (h : Counts members degree degrees) :
      Counts members (fun x => degree x + inDegree after l x)
        (l.foldl (fun degrees x => (after x).foldl raise degrees) degrees) := by
    induction l generalizing degree degrees with
    | nil => exact h
    | cons y rest ih =>
        have hrest := ih (h.raiseAll (after y))
        simp only [Nat.add_assoc] at hrest
        exact hrest
  have hzero : Counts members (fun _ => 0) (.ofList (members.map fun x => (x, 0))) := by
    intro x
    have hkeys : ((members.map fun x => (x, 0)).map Prod.fst).Nodup := by
      rw [List.map_map]
      exact (List.map_id members).symm ▸ hnodup
    by_cases hx : x ∈ members
    · rw [if_pos hx, OrderedMap.get?_ofList _ hkeys]
      exact List.mem_map_of_mem hx
    · rw [if_neg hx, Option.eq_none_iff_forall_ne_some]
      intro d hd
      obtain ⟨z, hz, he⟩ := List.mem_map.mp ((OrderedMap.get?_ofList _ hkeys x d).mp hd)
      cases he
      exact hx hz
  simpa only [Nat.zero_add] using hrun members hzero

/-- The counters are right, and the queue holds what is pending and at zero, in order. -/
structure Keeps (before : α → α → Bool) (members pending : List α) (degree : α → Nat) (w : Walk α) :
    Prop where
  counts : Counts members degree w.degrees
  mem : ∀ {x : α}, x ∈ w.ready ↔ x ∈ pending ∧ degree x = 0
  sorted : w.ready.Pairwise fun a b => before a b = true
  nodup : w.ready.Nodup
  subset : pending ⊆ members
  pending : ∀ {x : α}, x ∈ members → degree x ≠ 0 → x ∈ pending

section Order

variable (htrans : ∀ a b c, before a b = true → before b c = true → before a c = true)
  (htotal : ∀ a b, (before a b || before b a) = true)
include htrans htotal

/-- One link to `x` less. -/
theorem Keeps.release (h : Keeps before members pending (fun y => degree y + [x].count y) w) :
    Keeps before members pending degree (w.release before x) := by
  have hdegree {y : α} (hy : y ≠ x) : degree y + [x].count y = degree y := by
    rw [count_of_ne hy, Nat.add_zero]
  have hone : degree x + [x].count x = degree x + 1 := by rw [List.count_singleton_self]
  have hstill {y : α} (hy : y ∈ members) (hne : degree y ≠ 0) : y ∈ pending :=
    h.pending hy (Nat.ne_of_gt (Nat.add_pos_left (Nat.pos_of_ne_zero hne) _))
  have hrest {y : α} (hy : y ≠ x) : y ∈ w.ready ↔ y ∈ pending ∧ degree y = 0 := by rw [h.mem, hdegree hy]
  rw [Walk.release, h.counts x]
  by_cases hx : x ∈ members
  · rw [if_pos hx]
    simp only [hone, Nat.add_sub_cancel]
    have hcounts : Counts members degree (w.degrees.insert x (degree x)) := by
      refine (h.counts.insert hx).congr fun y _ => ?_
      by_cases hy : y = x
      · rw [hy, Function.update_self]
      · rw [Function.update_of_ne hy, hdegree hy]
    -- It was not ready before, since this link led to it.
    have hnew : x ∉ w.ready := fun hr => by
      have hzero := (h.mem.mp hr).2
      rw [hone] at hzero
      cases hzero
    split
    · next hzero =>
        have hpending : x ∈ pending := h.pending hx (by rw [hone]; exact Nat.succ_ne_zero _)
        refine ⟨hcounts, fun {y} => ?_, pairwise_enqueue htrans htotal x h.sorted,
          (perm_enqueue before x w.ready).nodup_iff.mpr (List.nodup_cons.mpr ⟨hnew, h.nodup⟩),
          h.subset, hstill⟩
        rw [(perm_enqueue before x w.ready).mem_iff, List.mem_cons]
        by_cases hy : y = x
        · exact iff_of_true (Or.inl hy) (hy ▸ ⟨hpending, hzero⟩)
        · rw [or_iff_right hy, hrest hy]
    · next hzero =>
        refine ⟨hcounts, fun {y} => ?_, h.sorted, h.nodup, h.subset, hstill⟩
        by_cases hy : y = x
        · exact iff_of_false (fun hr => hnew (hy ▸ hr)) fun hz => hzero (hy ▸ hz.2)
        · exact hrest hy
  · rw [if_neg hx]
    have hne {y : α} (hy : y ∈ members) : y ≠ x := fun he => hx (he ▸ hy)
    refine ⟨h.counts.congr fun y hy => hdegree (hne hy), fun {y} => ⟨fun hy => ?_, fun hy => ?_⟩,
      h.sorted, h.nodup, h.subset, hstill⟩
    · exact (hrest (hne (h.subset (h.mem.mp hy).1))).mp hy
    · exact (hrest (hne (h.subset hy.1))).mpr hy

theorem Keeps.releaseAll {l : List α}
    (h : Keeps before members pending (fun y => degree y + l.count y) w) :
    Keeps before members pending degree (l.foldl (Walk.release before) w) := by
  induction l generalizing w with
  | nil => exact h
  | cons x rest ih =>
      refine ih (Keeps.release htrans htotal (x := x) ?_)
      have hcount (y : α) : degree y + rest.count y + [x].count y = degree y + (x :: rest).count y := by
        rw [Nat.add_assoc, Nat.add_comm (rest.count y), ← List.count_append, List.singleton_append]
      simp only [hcount]
      exact h

theorem Keeps.step {rest : List α} (h : Keeps before members pending (inDegree after pending) w)
    (hready : w.ready = x :: rest) (hnodup : pending.Nodup) :
    Keeps before members (pending.erase x) (inDegree after (pending.erase x))
      ((after x).foldl (Walk.release before) { w with ready := rest }) := by
  obtain ⟨hx, hzero⟩ := h.mem.mp (hready ▸ List.mem_cons_self)
  have hsorted := hready ▸ h.sorted
  obtain ⟨hnew, hrest⟩ := List.nodup_cons.mp (hready ▸ h.nodup)
  refine Keeps.releaseAll htrans htotal ?_
  simp only [← inDegree_erase hx]
  refine ⟨h.counts, fun {y} => ?_, (List.pairwise_cons.mp hsorted).2, hrest,
    fun y hy => h.subset (List.mem_of_mem_erase hy),
    fun {y} hy hne => ?_⟩
  · have hmem := h.mem (x := y)
    rw [hready, List.mem_cons] at hmem
    rw [hnodup.mem_erase_iff, and_assoc, ← hmem]
    by_cases hy : y = x
    · exact iff_of_false (hy ▸ hnew) fun hne => hne.1 hy
    · rw [and_iff_right hy, or_iff_right hy]
  · have hyx : y ≠ x := fun he => hne (he ▸ hzero)
    exact (List.mem_erase_of_ne hyx).mpr (h.pending hy hne)

/-- A run in as many steps as there are members takes the first ready one until none is ready. -/
theorem Keeps.run_picks {n : Nat} (h : Keeps before members pending (inDegree after pending) w)
    (hnodup : pending.Nodup) (hn : pending.length ≤ n) :
    Picks after before pending (w.run after before n) := by
  induction n generalizing pending w with
  | zero =>
      obtain rfl := List.length_eq_zero_iff.mp (Nat.le_zero.mp hn)
      exact .stop (List.forall_mem_nil _)
  | succ n ih =>
      rw [run]
      split
      · next hready =>
          refine .stop fun x hx hfree => ?_
          have hmem := h.mem.mpr ⟨hx, inDegree_eq_zero_iff.mpr hfree⟩
          rw [hready] at hmem
          cases hmem
      · next x rest hready =>
          obtain ⟨hx, hzero⟩ := h.mem.mp (hready ▸ List.mem_cons_self)
          refine .take hx (inDegree_eq_zero_iff.mp hzero) (fun y hy hfree => ?_)
            (ih (h.step htrans htotal hready hnodup) (hnodup.erase x) ?_)
          · have hmem := h.mem.mpr ⟨hy, inDegree_eq_zero_iff.mpr hfree⟩
            rw [hready] at hmem
            rcases List.mem_cons.mp hmem with rfl | hmem
            · exact (Bool.or_self _).symm.trans (htotal y y)
            · exact (List.pairwise_cons.mp (hready ▸ h.sorted)).1 y hmem
          · have hlength := List.length_erase_add_one hx
            omega

theorem keeps_start (after : α → List α) (hnodup : members.Nodup) :
    Keeps before members members (inDegree after members) (start after before members) := by
  have hcounts := counts_start after hnodup
  have hrun (l queue : List α) (hqueue : queue.Pairwise fun a b => before a b = true) :
      (l.foldl (fun ready x => enqueue before x ready) queue).Perm (l ++ queue) ∧
        (l.foldl (fun ready x => enqueue before x ready) queue).Pairwise fun a b => before a b = true := by
    induction l generalizing queue with
    | nil => exact ⟨.refl _, hqueue⟩
    | cons x rest ih =>
        obtain ⟨hperm, hsorted⟩ := ih _ (pairwise_enqueue htrans htotal x hqueue)
        exact ⟨hperm.trans (((perm_enqueue before x queue).append_left rest).trans
          List.perm_middle), hsorted⟩
  obtain ⟨hperm, hsorted⟩ : (start after before members).ready.Perm
      ((members.filter fun x => (start after before members).degrees.get? x = some 0) ++ []) ∧
      (start after before members).ready.Pairwise fun a b => before a b = true := hrun _ [] .nil
  rw [List.append_nil] at hperm
  refine ⟨hcounts, fun {x} => ?_, hsorted, hperm.nodup_iff.mpr (hnodup.filter _),
    List.Subset.refl _, fun hx _ => hx⟩
  rw [hperm.mem_iff, List.mem_filter, decide_eq_true_eq]
  refine and_congr_right fun hx => ?_
  have hdegree : (start after before members).degrees.get? x = some (inDegree after members x) :=
    (hcounts x).trans (if_pos hx)
  rw [hdegree, Option.some.injEq]

end Order

end Walk

theorem walk_picks (htrans : ∀ a b c, before a b = true → before b c = true → before a c = true)
    (htotal : ∀ a b, (before a b || before b a) = true) (after : α → List α) (hnodup : members.Nodup) :
    Picks after before members (walk after before members) :=
  (Walk.keeps_start htrans htotal after hnodup).run_picks htrans htotal hnodup (Nat.le_refl _)

def Forward (R : α → α → Prop) (l : List α) : Prop := ∀ a ∈ l, ∀ b ∈ l, R a b → l.idxOf a < l.idxOf b

section Forward

variable {R : α → α → Prop} {l : List α}

theorem Forward.not_head (h : Forward R (x :: l)) {a : α} (ha : a ∈ x :: l) : ¬ R a x := by
  intro hax
  have hlt := h a ha x List.mem_cons_self hax
  rw [List.idxOf_cons_self] at hlt
  exact Nat.not_lt_zero _ hlt

theorem Forward.tail (h : Forward R (x :: l)) (hx : x ∉ l) : Forward R l := by
  intro a ha b hb hab
  have hlt := h a (List.mem_cons_of_mem x ha) b (List.mem_cons_of_mem x hb) hab
  have hxa : x ≠ a := fun he => hx (he ▸ ha)
  have hxb : x ≠ b := fun he => hx (he ▸ hb)
  rw [List.idxOf_cons_ne _ hxa, List.idxOf_cons_ne _ hxb] at hlt
  exact Nat.lt_of_succ_lt_succ hlt

theorem Forward.cons (h : Forward R l) (hx : ∀ a ∈ x :: l, ¬ R a x) : Forward R (x :: l) := by
  intro a ha b hb hab
  by_cases hbx : b = x
  · exact absurd hab (hbx ▸ hx a ha)
  · rw [List.idxOf_cons_ne _ (Ne.symm hbx)]
    by_cases hax : a = x
    · rw [hax, List.idxOf_cons_self]
      exact Nat.succ_pos _
    · rw [List.idxOf_cons_ne _ (Ne.symm hax)]
      exact Nat.succ_lt_succ (h a (List.mem_of_ne_of_mem hax ha) b (List.mem_of_ne_of_mem hbx hb) hab)

theorem Forward.mono {R' : α → α → Prop} (h : Forward R l) (hR : ∀ a ∈ l, ∀ b ∈ l, R' a b → R a b) :
    Forward R' l :=
  fun a ha b hb hab => h a ha b hb (hR a ha b hb hab)

theorem Forward.pairwise (h : Forward R l) (hl : l.Nodup) : l.Pairwise fun a b => ¬ R b a := by
  induction l with
  | nil => exact .nil
  | cons x rest ih =>
      obtain ⟨hx, hrest⟩ := List.nodup_cons.mp hl
      exact List.pairwise_cons.mpr ⟨fun y hy => h.not_head (List.mem_cons_of_mem x hy),
        ih (h.tail hx) hrest⟩

end Forward

namespace Picks

variable (h : Picks after before pending done)
include h

theorem subset : done ⊆ pending := by
  induction h with
  | stop => exact List.nil_subset _
  | take hx _ _ _ ih => exact List.cons_subset.mpr ⟨hx, fun y hy => List.mem_of_mem_erase (ih hy)⟩

theorem nodup (hp : pending.Nodup) : done.Nodup := by
  induction h with
  | stop => exact .nil
  | take _ _ _ h ih =>
      exact List.nodup_cons.mpr ⟨fun hx => hp.not_mem_erase (h.subset hx), ih (hp.erase _)⟩

theorem perm (hp : pending.Nodup) (hlength : done.length = pending.length) : done.Perm pending :=
  (List.subperm_of_subset (h.nodup hp) h.subset).perm_of_length_le hlength.ge

theorem forward : Forward (fun a b => b ∈ after a) done := by
  induction h with
  | stop => exact List.forall_mem_nil _
  | take hx hready _ h ih =>
      refine ih.cons fun a ha => hready a ?_
      rcases List.mem_cons.mp ha with rfl | ha
      · exact hx
      · exact List.mem_of_mem_erase (h.subset ha)

theorem exists_before (hp : pending.Nodup) (hx : x ∈ pending) (hleft : x ∉ done) :
    ∃ y ∈ pending, y ∉ done ∧ x ∈ after y := by
  induction h with
  | stop h =>
      have hready := h x hx
      rw [Ready] at hready
      push Not at hready
      obtain ⟨y, hy, hxy⟩ := hready
      exact ⟨y, hy, List.not_mem_nil, hxy⟩
  | take _ _ _ _ ih =>
      obtain ⟨hne, hrest⟩ := not_or.mp (List.mem_cons.not.mp hleft)
      obtain ⟨y, hy, hydone, hxy⟩ := ih (hp.erase _) ((List.mem_erase_of_ne hne).mpr hx) hrest
      obtain ⟨hynew, hy⟩ := hp.mem_erase_iff.mp hy
      exact ⟨y, hy, List.not_mem_cons_of_ne_of_not_mem hynew hydone, hxy⟩

theorem mem_of_before {a b : α} (ha : a ∈ pending) (hb : b ∈ done) (hab : b ∈ after a) :
    a ∈ done := by
  induction h with
  | stop => cases hb
  | @take pending done x _ hready _ _ ih =>
      by_cases hax : a = x
      · exact hax ▸ List.mem_cons_self
      · refine List.mem_cons_of_mem x
          (ih ((List.mem_erase_of_ne hax).mpr ha) (List.mem_of_ne_of_mem ?_ hb))
        rintro rfl
        exact hready a ha hab

theorem head? (hx : x ∈ pending) (hready : Ready after pending x)
    (hfirst : ∀ y ∈ pending, before y x = true → y = x) : done.head? = some x := by
  cases h with
  | stop h => exact absurd hready (h x hx)
  | take hy _ hleast _ => exact congrArg some (hfirst _ hy (hleast x hx hready))

/-- Of all orders in which everything stands behind what leads to it, the first ready members make the
least. -/
theorem least {β : Type} [LinearOrder β] {key : α → β} (hkey : Function.Injective key)
    (hbefore : ∀ a b, before a b = true → key a ≤ key b) (hp : pending.Nodup) {l : List α}
    (hperm : l.Perm pending) (hl : Forward (fun a b => b ∈ after a) l) :
    done = l ∨ List.Lex (fun a b => key a < key b) done l := by
  induction h generalizing l with
  | stop =>
      cases l with
      | nil => exact Or.inl rfl
      | cons y rest => exact Or.inr .nil
  | @take pending done x hx _ hfirst _ ih =>
      cases l with
      | nil => exact absurd (hperm.mem_iff.mpr hx) List.not_mem_nil
      | cons y rest =>
          -- The first member of the other order is ready, too.
          have hy : Ready after pending y := fun a ha => hl.not_head (hperm.mem_iff.mpr ha)
          have hle := hbefore x y (hfirst y (hperm.mem_iff.mp List.mem_cons_self) hy)
          rcases lt_or_eq_of_le hle with hlt | heq
          · exact Or.inr (.rel hlt)
          · obtain rfl := hkey heq
            have hfresh : x ∉ rest := (List.nodup_cons.mp (hperm.nodup_iff.mpr hp)).1
            have htail : rest.Perm (pending.erase x) := by
              have herase := hperm.erase x
              rwa [List.erase_cons_head] at herase
            exact (ih (hp.erase x) htail (hl.tail hfresh)).imp (congrArg (x :: ·)) List.Lex.cons

end Picks

end VisualScript
