namespace VisualScript

variable {α : Type} [DecidableEq α]

omit [DecidableEq α] in
theorem countP_lt_countP_of_mem {p q : α → Bool} {x : α} {l : List α} (hx : x ∈ l) (hq : q x = true)
    (hp : p x = false) (h : ∀ y, p y = true → q y = true) : l.countP p < l.countP q := by
  induction l with
  | nil => cases hx
  | cons a l ih =>
      cases hx with
      | head =>
          have := List.countP_mono_left (l := l) fun y _ => h y
          simp only [List.countP_cons, hp, hq]
          simp
          omega
      | tail _ hl =>
          have := ih hl
          have := h a
          simp only [List.countP_cons]
          split <;> split <;> simp_all; omega

/-- The members of `all` that can be reached from `todo`, with those seen before. -/
def closure (all : List α) (next : α → List α) (todo seen : List α) : List α :=
  match todo with
  | [] => seen
  | x :: rest =>
      if x ∈ all ∧ x ∉ seen then closure all next (next x ++ rest) (x :: seen)
      else closure all next rest seen
termination_by (all.countP fun y => y ∉ seen, todo.length)
decreasing_by
  · next h =>
      exact Prod.Lex.left _ _ (countP_lt_countP_of_mem h.1 (by simp [h.2]) (by simp)
        fun y hy => by simp_all)
  · exact Prod.Lex.right _ (by simp)

end VisualScript
