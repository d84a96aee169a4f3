import Mathlib.Logic.Relation
import VisualScript.Graph.Closure

namespace VisualScript

variable {α : Type} [DecidableEq α] {all : List α} {next : α → List α}

theorem subset_closure (todo seen : List α) {x : α} (hx : x ∈ seen ∨ x ∈ todo ∧ x ∈ all) :
    x ∈ closure all next todo seen := by
  fun_induction closure all next todo seen with
  | case1 seen => simpa using hx
  | case2 seen y rest hy ih =>
      apply ih
      rcases hx with hx | ⟨hx, hall⟩
      · exact Or.inl (List.mem_cons_of_mem y hx)
      · rcases List.mem_cons.mp hx with rfl | hx
        · exact Or.inl List.mem_cons_self
        · exact Or.inr ⟨List.mem_append_right _ hx, hall⟩
  | case3 seen y rest hy ih =>
      apply ih
      rcases hx with hx | ⟨hx, hall⟩
      · exact Or.inl hx
      · rcases List.mem_cons.mp hx with rfl | hx
        · exact Or.inl (Decidable.not_not.mp fun hn => hy ⟨hall, hn⟩)
        · exact Or.inr ⟨hx, hall⟩

theorem closure_next {todo seen : List α}
    (hseen : ∀ x ∈ seen, ∀ y ∈ next x, y ∈ all → y ∈ seen ∨ y ∈ todo) {x y : α}
    (hx : x ∈ closure all next todo seen) (hy : y ∈ next x) (hall : y ∈ all) :
    y ∈ closure all next todo seen := by
  fun_induction closure all next todo seen with
  | case1 seen => exact (hseen x hx y hy hall).resolve_right List.not_mem_nil
  | case2 seen z rest hz ih =>
      refine ih (fun a ha b hb hball => ?_) hx
      rcases List.mem_cons.mp ha with rfl | ha
      · exact Or.inr (List.mem_append_left _ hb)
      · rcases hseen a ha b hb hball with hb | hb
        · exact Or.inl (List.mem_cons_of_mem z hb)
        · rcases List.mem_cons.mp hb with rfl | hb
          · exact Or.inl List.mem_cons_self
          · exact Or.inr (List.mem_append_right _ hb)
  | case3 seen z rest hz ih =>
      refine ih (fun a ha b hb hball => ?_) hx
      rcases hseen a ha b hb hball with hb | hb
      · exact Or.inl hb
      · rcases List.mem_cons.mp hb with rfl | hb
        · exact Or.inl (Decidable.not_not.mp fun hn => hz ⟨hball, hn⟩)
        · exact Or.inr hb

theorem exists_path_of_mem_closure {todo seen : List α} {x : α} (h : x ∈ closure all next todo seen) :
    x ∈ seen ∨ ∃ s ∈ todo, s ∈ all ∧ Relation.ReflTransGen (fun a b => b ∈ next a ∧ b ∈ all) s x := by
  fun_induction closure all next todo seen with
  | case1 seen => exact Or.inl h
  | case2 seen y rest hy ih =>
      rcases ih h with hx | ⟨s, hs, hall, hpath⟩
      · rcases List.mem_cons.mp hx with rfl | hx
        · exact Or.inr ⟨x, List.mem_cons_self, hy.1, .refl⟩
        · exact Or.inl hx
      · rcases List.mem_append.mp hs with hs | hs
        · exact Or.inr ⟨y, List.mem_cons_self, hy.1, .head ⟨hs, hall⟩ hpath⟩
        · exact Or.inr ⟨s, List.mem_cons_of_mem y hs, hall, hpath⟩
  | case3 seen y rest hy ih =>
      refine (ih h).imp_right fun ⟨s, hs, hpath⟩ => ⟨s, List.mem_cons_of_mem y hs, hpath⟩

theorem mem_closure_iff {todo : List α} {x : α} : x ∈ closure all next todo [] ↔
    ∃ s ∈ todo, s ∈ all ∧ Relation.ReflTransGen (fun a b => b ∈ next a ∧ b ∈ all) s x := by
  constructor
  · intro h
    exact (exists_path_of_mem_closure h).resolve_left List.not_mem_nil
  · rintro ⟨s, hs, hall, hpath⟩
    induction hpath with
    | refl => exact subset_closure _ _ (Or.inr ⟨hs, hall⟩)
    | tail _ hstep ih => exact closure_next (List.forall_mem_nil _) ih hstep.1 hstep.2

end VisualScript
