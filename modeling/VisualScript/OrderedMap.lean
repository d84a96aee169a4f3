namespace VisualScript

/-- A finite map that lists its keys in the order they were first inserted. -/
structure OrderedMap (α β : Type) where
  entries : List (α × β)
  nodup : (entries.map Prod.fst).Nodup

namespace OrderedMap

variable {α β γ : Type}

/-- Replaces the value under `k` where it stands, or appends the pair. -/
def put [DecidableEq α] (k : α) (v : β) : List (α × β) → List (α × β)
  | [] => [(k, v)]
  | (k', v') :: rest => if k' = k then (k', v) :: rest else (k', v') :: put k v rest

theorem keys_put [DecidableEq α] (k : α) (v : β) (l : List (α × β)) :
    (put k v l).map Prod.fst =
      if k ∈ l.map Prod.fst then l.map Prod.fst else l.map Prod.fst ++ [k] := by
  induction l with
  | nil => rfl
  | cons p rest ih =>
      by_cases h : p.1 = k
      · simp [put, h]
      · have hk : ¬ k = p.1 := fun e => h e.symm
        simp only [put, h, if_false, List.map_cons, ih, List.mem_cons, hk, false_or]
        split <;> simp

theorem nodup_put [DecidableEq α] (k : α) (v : β) (l : List (α × β)) (h : (l.map Prod.fst).Nodup) :
    ((put k v l).map Prod.fst).Nodup := by
  rw [keys_put]
  split
  · exact h
  · next hk => exact List.nodup_append.2 ⟨h, by simp, fun a ha b hb e => hk (by simp_all)⟩

protected def empty : OrderedMap α β := ⟨[], List.nodup_nil⟩

instance : EmptyCollection (OrderedMap α β) := ⟨OrderedMap.empty⟩

instance : Inhabited (OrderedMap α β) := ⟨∅⟩

instance [DecidableEq α] [DecidableEq β] : DecidableEq (OrderedMap α β) := fun a b =>
  if h : a.entries = b.entries then
    isTrue (by cases a; cases b; simp_all)
  else isFalse fun e => h (congrArg entries e)

def insert [DecidableEq α] (m : OrderedMap α β) (k : α) (v : β) : OrderedMap α β :=
  ⟨put k v m.entries, nodup_put k v m.entries m.nodup⟩

def get? [DecidableEq α] (m : OrderedMap α β) (k : α) : Option β :=
  (m.entries.find? fun p => p.1 = k).map Prod.snd

def contains [DecidableEq α] (m : OrderedMap α β) (k : α) : Bool := m.entries.any fun p => p.1 = k

/-- Keeps the value already stored under `k`, if there is one. -/
def insertIfNew [DecidableEq α] (m : OrderedMap α β) (k : α) (v : β) : OrderedMap α β :=
  if m.contains k then m else m.insert k v

def erase [DecidableEq α] (m : OrderedMap α β) (k : α) : OrderedMap α β :=
  ⟨m.entries.filter fun p => p.1 ≠ k, m.nodup.sublist (List.filter_sublist.map _)⟩

def keys (m : OrderedMap α β) : List α := m.entries.map Prod.fst

def values (m : OrderedMap α β) : List β := m.entries.map Prod.snd

def size (m : OrderedMap α β) : Nat := m.entries.length

def isEmpty (m : OrderedMap α β) : Bool := m.entries.isEmpty

/-- Inserts the pairs from left to right, so the last value of a repeated key stays. -/
def ofList [DecidableEq α] (l : List (α × β)) : OrderedMap α β :=
  l.foldl (fun m p => m.insert p.1 p.2) ∅

def mapValues (f : β → γ) (m : OrderedMap α β) : OrderedMap α γ :=
  ⟨m.entries.map fun p => (p.1, f p.2), by
    have h : (m.entries.map fun p => (p.1, f p.2)).map Prod.fst = m.entries.map Prod.fst := by simp
    rw [h]; exact m.nodup⟩

end OrderedMap

end VisualScript
