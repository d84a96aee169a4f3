import Mathlib.Data.List.Perm.Subperm
import VisualScript.Proofs.Class.Promotion

namespace VisualScript.Schema

variable {s : Schema} {taken : List String}

theorem freeName_not_mem (taken : List String) (declared : String) : freeName taken declared ∉ taken := by
  have hname : freeName taken declared =
      (((List.range (taken.length + 1)).map fun n => NameTable.numbered declared (n + 1)).find?
        fun c => c ∉ taken).getD declared := rfl
  have hnodup : ((List.range (taken.length + 1)).map fun n => NameTable.numbered declared (n + 1)).Nodup :=
    List.nodup_range.map fun n m he => Nat.succ.inj (NameTable.numbered_inj he)
  have hlength : ((List.range (taken.length + 1)).map fun n => NameTable.numbered declared
      (n + 1)).length = taken.length + 1 := by
    rw [List.length_map, List.length_range]
  generalize (List.range (taken.length + 1)).map (fun n => NameTable.numbered declared (n + 1)) =
    candidates at *
  rw [hname]
  cases hfind : candidates.find? fun c => c ∉ taken with
  | some name =>
      have hfree := List.find?_some hfind
      exact of_decide_eq_true hfree
  | none =>
      -- If all of them were taken, there would be more of them than are taken.
      have hsubset : candidates ⊆ taken := fun name hname => by
        simpa using List.find?_eq_none.mp hfind name hname
      have hle := (hnodup.subperm hsubset).length_le
      omega

theorem addMembers_eq (taken : List String) (s : Schema) (ms : List MemberDecl) :
    ∃ members renamed, (addMembers taken s ms).1 = { s with members, renamed } := by
  induction ms generalizing s with
  | nil => exact ⟨s.members, s.renamed, rfl⟩
  | cons m rest ih =>
      obtain ⟨members, renamed, he⟩ := ih (addMember taken s m).1
      refine ⟨members, renamed, ?_⟩
      rw [addMembers]
      refine he.trans ?_
      rw [addMember]
      split <;> rfl

def Avoids (s : Schema) (taken : List String) : Prop := ∀ name ∈ taken, s.members.contains name = false

theorem Avoids.insert (h : s.Avoids taken) {name : String} (hname : name ∉ taken) (m : MemberDecl)
    (renamed : OrderedMap String String) :
    Avoids { s with members := s.members.insert name m, renamed } taken := by
  intro k hk
  rw [Bool.eq_false_iff, Ne, OrderedMap.contains_insert, h k hk]
  rintro (rfl | hc)
  · exact hname hk
  · cases hc

theorem Avoids.addMember (h : s.Avoids taken) (m : MemberDecl) : (addMember taken s m).1.Avoids taken := by
  rw [Schema.addMember]
  split
  · have hfree := freeName_not_mem (taken ++ s.members.keys) m.name
    exact h.insert (fun hc => hfree (List.mem_append_left _ hc)) _ _
  · next hnew => exact h.insert (fun hc => hnew (List.mem_append_left _ hc)) _ _

theorem Avoids.addMembers (h : s.Avoids taken) (ms : List MemberDecl) :
    (addMembers taken s ms).1.Avoids taken := by
  induction ms generalizing s with
  | nil => exact h
  | cons m rest ih =>
      rw [Schema.addMembers]
      exact ih (h.addMember m)

theorem contains_addFunctions {gs : List ScriptGraph} {functions : OrderedMap String Nat}
    {index : Nat} {name : String} :
    (addFunctions functions index gs).1.contains name = true ↔
      functions.contains name = true ∨ ∃ g ∈ gs, g.functionName = name := by
  induction gs generalizing functions index with
  | nil => simp [addFunctions]
  | cons g rest ih =>
      rw [addFunctions, List.exists_mem_cons_iff]
      split
      · next hc =>
          refine ih.trans ⟨Or.imp_right Or.inr, ?_⟩
          rintro (h | rfl | h)
          · exact Or.inl h
          · exact Or.inl hc
          · exact Or.inr h
      · rw [ih, OrderedMap.contains_insert, eq_comm, or_assoc, or_left_comm]

variable (u : CompilationUnit)

theorem ofUnit_eq : ∃ members renamed, (ofUnit u).1 =
    { name := u.name
      parent := u.parent.map ParentClass.name
      functions := (addFunctions ∅ 0 u.functionGraphs).1
      events := eventNames u.eventGraphs
      eventGraphFunction := eventGraphName u.name
      members
      renamed } := by
  simp only [ofUnit]
  exact addMembers_eq _ _ _

theorem exists_addMembers :
    ∃ s : Schema, s.members = ∅ ∧ s.renamed = ∅ ∧ (ofUnit u).1.callables = s.callables ∧
    ofUnit u = ((addMembers s.callables s (declared u)).1,
      (addFunctions ∅ 0 u.functionGraphs).2 ++
        (addMembers s.callables s (declared u)).2.map fun i => (u.name, i)) := by
  have hcallables (s : Schema) : (addMembers s.callables s (declared u)).1.callables = s.callables := by
    obtain ⟨members, renamed, he⟩ := addMembers_eq s.callables s (declared u)
    rw [he]
    rfl
  exact ⟨_, rfl, rfl, hcallables _, rfl⟩

theorem functions_ofUnit : (ofUnit u).1.functions = (addFunctions ∅ 0 u.functionGraphs).1 := by
  obtain ⟨members, renamed, he⟩ := ofUnit_eq u
  rw [he]

theorem contains_functions {name : String} :
    (ofUnit u).1.functions.contains name = true ↔ ∃ g ∈ u.functionGraphs, g.functionName = name := by
  have hnone : (∅ : OrderedMap String Nat).contains name ≠ true := by simp [OrderedMap.contains_eq_isSome]
  rw [functions_ofUnit, contains_addFunctions, or_iff_right hnone]

theorem events_ofUnit : (ofUnit u).1.events = eventNames u.eventGraphs := by
  obtain ⟨members, renamed, he⟩ := ofUnit_eq u
  rw [he]

theorem eventGraphFunction_ofUnit : (ofUnit u).1.eventGraphFunction = eventGraphName u.name := by
  obtain ⟨members, renamed, he⟩ := ofUnit_eq u
  rw [he]

theorem ofUnit_avoids : (ofUnit u).1.Avoids (ofUnit u).1.callables := by
  obtain ⟨s, hmembers, -, hcallables, hunit⟩ := exists_addMembers u
  have hstart : s.Avoids s.callables := fun name _ => by rw [hmembers]; rfl
  rw [hcallables, hunit]
  exact hstart.addMembers (declared u)

theorem mem_callables {name : String} : name ∈ (ofUnit u).1.callables ↔
    (∃ g ∈ u.functionGraphs, g.functionName = name) ∨ name ∈ eventNames u.eventGraphs ∨
      name = eventGraphName u.name := by
  rw [← contains_functions, OrderedMap.contains_iff_mem_keys, callables, List.append_assoc,
    List.mem_append, List.mem_append,
    List.mem_singleton, events_ofUnit, eventGraphFunction_ofUnit]

end VisualScript.Schema
