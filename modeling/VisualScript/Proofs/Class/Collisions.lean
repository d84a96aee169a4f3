import VisualScript.Proofs.Class.Naming
import VisualScript.Proofs.Event.Naming
import VisualScript.Proofs.Occurrences

namespace VisualScript

/-- Something of that name can be called: a function, an event of a page or the event graph. -/
def CompilationUnit.Calls (u : CompilationUnit) (name : String) : Prop :=
  (∃ g ∈ u.functionGraphs, g.functionName = name) ∨ (∃ page ∈ u.eventGraphs, page.Announces name) ∨
    name = Schema.eventGraphName u.name

/-- The names that members are declared by: those of components, then those of variables. -/
def CompilationUnit.memberNames (u : CompilationUnit) : List String :=
  u.components.map ComponentDecl.name ++ u.fields.map VariableDecl.name

namespace Schema

variable {taken : List String} {name : String}

theorem freeName_numbered (h : name ∈ taken) :
    ∃ k, freeName taken name = NameTable.numbered name (k + 1) ∧ ∀ j < k,
    NameTable.numbered name (j + 1) ∈ taken := by
  have hfree := freeName_not_mem taken name
  have hname : freeName taken name =
      (((List.range (taken.length + 1)).map fun n => NameTable.numbered name (n + 1)).find?
        fun c => c ∉ taken).getD name := rfl
  rw [List.find?_map] at hname
  cases hfind : (List.range (taken.length + 1)).find?
    ((fun c => decide (c ∉ taken)) ∘ fun n => NameTable.numbered name (n + 1)) with
  | none =>
      rw [hfind] at hname
      exact absurd (hname ▸ h) hfree
  | some k =>
      obtain ⟨-, -, hless⟩ := List.find?_range_eq_some.mp hfind
      rw [hfind] at hname
      refine ⟨k, hname, fun j hj => ?_⟩
      simpa using hless j hj

def settle (taken : List String) (name : String) : String :=
  if name ∈ taken then freeName taken name else name

theorem settle_not_mem (taken : List String) (name : String) : settle taken name ∉ taken := by
  rw [settle]
  split
  · exact freeName_not_mem taken name
  · assumption

theorem addMember_eq (callables : List String) (s : Schema) (m : MemberDecl) {name : String}
    (hname : settle (callables ++ s.members.keys) m.name = name) :
    ∃ members, addMember callables s m = ({ s with
          members
          renamed := if m.name ∈ callables then s.renamed.insert m.name name else s.renamed },
        if m.name = name then [] else [.nameAutoRenamed m.name name]) ∧
      members.entries = s.members.entries ++ [(name, { m with name })] := by
  have hfree : name ∉ callables ++ s.members.keys := hname ▸ settle_not_mem _ _
  have hnew : s.members.contains name = false := by
    rw [Bool.eq_false_iff, Ne, OrderedMap.contains_iff_mem_keys]
    exact fun hc => hfree (List.mem_append_right _ hc)
  refine ⟨_, ?_, OrderedMap.entries_insert_of_new hnew _⟩
  by_cases htaken : m.name ∈ callables ++ s.members.keys
  · have hne : m.name ≠ name := fun he => hfree (he ▸ htaken)
    rw [settle, if_pos htaken] at hname
    rw [addMember, if_pos htaken, if_neg hne, hname]
  · have hcallable : m.name ∉ callables := fun hc => htaken (List.mem_append_left _ hc)
    rw [settle, if_neg htaken] at hname
    rw [addMember, if_neg htaken, if_pos hname, if_neg hcallable, ← hname]

/-- The members as they are entered one after the other, each beside the names given before. -/
def entered (callables keys : List String) : List MemberDecl → List MemberDecl
  | [] => []
  | m :: rest =>
      { m with name := settle (callables ++ keys) m.name } ::
        entered callables (keys ++ [settle (callables ++ keys) m.name]) rest

theorem map_entered {α : Type} {f : MemberDecl → α} (hf : ∀ m name, f { m with name } = f m)
    (callables keys : List String) (ms : List MemberDecl) :
    (entered callables keys ms).map f = ms.map f := by
  induction ms generalizing keys with
  | nil => rfl
  | cons m rest ih => rw [entered, List.map_cons, List.map_cons, hf, ih]

theorem entered_getElem? (callables keys : List String) (ms : List MemberDecl) (i : Nat) :
    ((entered callables keys ms).map MemberDecl.name)[i]? = (ms.map MemberDecl.name)[i]?.map
      (settle (callables ++ (keys ++ ((entered callables keys ms).map MemberDecl.name).take i))) := by
  induction ms generalizing keys i with
  | nil => rfl
  | cons m rest ih =>
      cases i with
      | zero => simp [entered]
      | succ i => simpa [entered] using ih (keys ++ [settle (callables ++ keys) m.name]) i

theorem addMembers_entered (callables : List String) (s : Schema) (ms : List MemberDecl) :
    (addMembers callables s ms).1.members.entries =
        s.members.entries ++ (entered callables s.members.keys ms).map (fun m => (m.name, m)) ∧
      (addMembers callables s ms).2 =
        (((ms.map MemberDecl.name).zip ((entered callables s.members.keys ms).map MemberDecl.name)).filter
          fun p => p.1 ≠ p.2).map fun p => .nameAutoRenamed p.1 p.2 := by
  induction ms generalizing s with
  | nil => exact ⟨(List.append_nil _).symm, rfl⟩
  | cons m rest ih =>
      obtain ⟨members, hadd, hentries⟩ := addMember_eq callables s m rfl
      have hkeys : members.keys = s.members.keys ++ [settle (callables ++ s.members.keys) m.name] := by
        rw [OrderedMap.keys, hentries, List.map_append]
        rfl
      obtain ⟨hrest, hissues⟩ := ih (addMember callables s m).1
      simp only [hadd, hkeys] at hrest hissues
      simp only [addMembers, hadd, entered, List.map_cons, List.zip_cons_cons]
      refine ⟨?_, ?_⟩
      · rw [hrest, hentries, List.append_assoc]
        rfl
      · rw [hissues, List.filter_cons]
        by_cases hsame : m.name = settle (callables ++ s.members.keys) m.name
        · simp [← hsame]
        · simp [hsame]

/-- A function name is entered with the first graph that declares it, and each later one is reported. -/
theorem addFunctions_firsts (front gs : List ScriptGraph) {functions : OrderedMap String Nat}
    (h : functions.HoldsFirsts (fun p => p.1.functionName) Prod.snd front.zipIdx) :
    (addFunctions functions front.length gs).1.HoldsFirsts (fun p => p.1.functionName) Prod.snd
      (front ++ gs).zipIdx ∧
      (repeats Graph.functionName (front ++ gs)).map
        (fun g => (g.name, Issue.duplicateFunction g.functionName)) =
        (repeats Graph.functionName front).map
          (fun g => (g.name, Issue.duplicateFunction g.functionName)) ++
          (addFunctions functions front.length gs).2 := by
  induction gs generalizing front functions with
  | nil => simpa [addFunctions] using h
  | cons g rest ih =>
      have hnames : front.zipIdx.map (fun p => p.1.functionName) = front.map Graph.functionName := by
        conv_rhs => rw [← List.zipIdx_map_fst 0 front, List.map_map]
        rfl
      have hcontains : functions.contains g.functionName = true ↔
          g.functionName ∈ front.map Graph.functionName := by
        rw [h.contains, hnames]
      have hnext := h.concat (g, front.length)
      have hindex : front.zipIdx ++ [(g, front.length)] = (front ++ [g]).zipIdx := by
        rw [List.zipIdx_append]
        simp
      have hlength : front.length + 1 = (front ++ [g]).length := by simp
      rw [hindex] at hnext
      obtain ⟨hfunctions, hissues⟩ := ih (front ++ [g]) hnext
      rw [List.append_assoc, List.singleton_append] at hfunctions hissues
      rw [repeats_concat, List.map_append, List.append_assoc] at hissues
      rw [addFunctions, hlength]
      by_cases hold : functions.contains g.functionName = true
      · rw [if_pos hold] at hfunctions hissues
        rw [if_pos hold]
        refine ⟨hfunctions, hissues.trans ?_⟩
        rw [if_pos (hcontains.mp hold)]
        rfl
      · rw [if_neg hold] at hfunctions hissues
        rw [if_neg hold]
        refine ⟨hfunctions, hissues.trans ?_⟩
        rw [if_neg (mt hcontains.mpr hold)]
        rfl

/-- The members and functions of a class are those its unit declares, all under names of their own. -/
structure Settled (u : CompilationUnit) (s : Schema) (issues : List (String × Issue)) : Prop where
  contents : s.members.values.map (fun m => (m.type, m.isComponent, m.default)) =
    u.components.map (fun c => (⟨.object c.cls, .single⟩, true, none)) ++
      u.fields.map fun v => (v.type, false, v.default)
  names : s.members.values.map MemberDecl.name = s.members.keys
  distinct : s.members.keys.Nodup
  apart : ∀ name ∈ s.members.keys, ¬ u.Calls name
  /-- A name that is free at its turn is kept. -/
  kept : ∀ i declared name, u.memberNames[i]? = some declared → s.members.keys[i]? = some name →
    ¬ u.Calls declared → declared ∉ s.members.keys.take i → name = declared
  /-- Any other gets the first number that makes it free. -/
  numbered : ∀ i declared name, u.memberNames[i]? = some declared → s.members.keys[i]? = some name →
    u.Calls declared ∨ declared ∈ s.members.keys.take i →
    ∃ k, name = NameTable.numbered declared (k + 1) ∧
      ∀ j < k, u.Calls (NameTable.numbered declared (j + 1)) ∨
        NameTable.numbered declared (j + 1) ∈ s.members.keys.take i
  functions : s.functions.entries =
    (firsts (fun p => p.1.functionName) u.functionGraphs.zipIdx).map fun p => (p.1.functionName, p.2)
  issues : issues =
    (repeats Graph.functionName u.functionGraphs).map
      (fun g => (g.name, .duplicateFunction g.functionName)) ++
      ((u.memberNames.zip s.members.keys).filter fun p => p.1 ≠ p.2).map fun p =>
        (u.name, .nameAutoRenamed p.1 p.2)

variable (u : CompilationUnit)

theorem mem_callables_iff_calls {name : String} : name ∈ (ofUnit u).1.callables ↔ u.Calls name := by
  rw [mem_callables, mem_eventNames, CompilationUnit.Calls]

theorem declared_names : (declared u).map MemberDecl.name = u.memberNames := by
  rw [declared, List.map_append, List.map_map, List.map_map]
  rfl

theorem ofUnit_entered :
    (ofUnit u).1.members.entries = (entered (ofUnit u).1.callables [] (declared u)).map
      (fun m => (m.name, m)) ∧
      (ofUnit u).2 = (addFunctions ∅ 0 u.functionGraphs).2 ++
        ((u.memberNames.zip ((entered (ofUnit u).1.callables [] (declared u)).map MemberDecl.name)).filter
          fun p => p.1 ≠ p.2).map fun p => (u.name, .nameAutoRenamed p.1 p.2) := by
  obtain ⟨s, hmembers, -, hcallables, hunit⟩ := exists_addMembers u
  obtain ⟨hentries, hissues⟩ := addMembers_entered s.callables s (declared u)
  rw [hmembers] at hentries hissues
  rw [hcallables, hunit, hissues, declared_names, List.map_map]
  exact ⟨hentries, rfl⟩

/-- No declaration is lost and every collision is resolved and reported. -/
theorem ofUnit_settled : Settled u (ofUnit u).1 (ofUnit u).2 := by
  obtain ⟨hentries, hissues⟩ := ofUnit_entered u
  have hvalues : (ofUnit u).1.members.values = entered (ofUnit u).1.callables [] (declared u) := by
    rw [OrderedMap.values, hentries, List.map_map]
    exact List.map_id _
  have hkeys : (ofUnit u).1.members.keys =
      (entered (ofUnit u).1.callables [] (declared u)).map MemberDecl.name := by
    rw [OrderedMap.keys, hentries, List.map_map]
    rfl
  have hturn {i : Nat} {declared name : String} (hd : u.memberNames[i]? = some declared)
      (hn : (ofUnit u).1.members.keys[i]? = some name) :
      name = settle ((ofUnit u).1.callables ++ (ofUnit u).1.members.keys.take i) declared := by
    rw [hkeys, entered_getElem?, declared_names, hd, List.nil_append, ← hkeys] at hn
    exact (Option.some.inj hn).symm
  have htaken {i : Nat} {name : String} : name ∈ (ofUnit u).1.callables ++
      (ofUnit u).1.members.keys.take i ↔
      u.Calls name ∨ name ∈ (ofUnit u).1.members.keys.take i := by
    rw [List.mem_append, mem_callables_iff_calls]
  have hempty : (∅ : OrderedMap String Nat).HoldsFirsts (fun p => p.1.functionName) Prod.snd
      ([] : List ScriptGraph).zipIdx := rfl
  obtain ⟨hfunctions, hduplicates⟩ := addFunctions_firsts [] u.functionGraphs hempty
  refine ⟨?_, ?_, (ofUnit u).1.members.nodup, ?_, ?_, ?_, ?_, ?_⟩
  · rw [hvalues, map_entered fun m name => rfl]
    rw [declared, List.map_append, List.map_map, List.map_map]
    rfl
  · rw [hvalues, hkeys]
  · intro name hname hcalls
    have hnone := ofUnit_avoids u name ((mem_callables_iff_calls u).mpr hcalls)
    rw [(OrderedMap.contains_iff_mem_keys _ _).mpr hname] at hnone
    cases hnone
  · intro i declared name hd hn hcalls hearlier
    rw [hturn hd hn, settle, if_neg (mt htaken.mp (not_or.mpr ⟨hcalls, hearlier⟩))]
  · intro i declared name hd hn hcollides
    obtain ⟨k, hk, hless⟩ := freeName_numbered (htaken.mpr hcollides)
    rw [hturn hd hn, settle, if_pos (htaken.mpr hcollides)]
    exact ⟨k, hk, fun j hj => htaken.mp (hless j hj)⟩
  · rw [functions_ofUnit]
    exact hfunctions
  · rw [hissues, ← hkeys]
    exact congrArg (· ++ _) hduplicates.symm

end Schema

end VisualScript
