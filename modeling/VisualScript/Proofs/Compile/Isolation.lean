import VisualScript.Proofs.Class.Naming
import VisualScript.Proofs.Compile.Skeleton

namespace VisualScript

/-- The lists agree but for some places, where the functions are no event graph and no event stub. -/
structure Job.AgreeExcept (except : Nat → Prop) (jobs jobs' : List Job) : Prop where
  length : jobs.length = jobs'.length
  same : ∀ i, ¬ except i → jobs[i]? = jobs'[i]?
  role : ∀ i, except i → ∀ j, jobs[i]? = some j ∨ jobs'[i]? = some j → j.work.role = .function

namespace Job.AgreeExcept

variable {except : Nat → Prop} {jobs jobs' : List Job}

theorem map (h : AgreeExcept except jobs jobs') {f : Job → Job} (hf : ∀ j, (f j).work.role = j.work.role) :
    AgreeExcept except (jobs.map f) (jobs'.map f) where
  length := by rw [List.length_map, List.length_map, h.length]
  same i hi := by rw [List.getElem?_map, List.getElem?_map, h.same i hi]
  role i hi j hj := by
    rw [List.getElem?_map, List.getElem?_map] at hj
    rcases hj with hj | hj
    all_goals
      obtain ⟨j₀, hj₀, rfl⟩ := Option.map_eq_some_iff.mp hj
      rw [hf]
    · exact h.role i hi j₀ (Or.inl hj₀)
    · exact h.role i hi j₀ (Or.inr hj₀)

theorem tail {j j' : Job} (h : AgreeExcept except (j :: jobs) (j' :: jobs')) :
    AgreeExcept (fun i => except (i + 1)) jobs jobs' :=
  ⟨Nat.succ.inj h.length, fun i => h.same (i + 1), fun i => h.role (i + 1)⟩

theorem find? {p : Job → Bool} (hp : ∀ j, j.work.role = .function → p j = false)
    (h : AgreeExcept except jobs jobs') :
    jobs.find? p = jobs'.find? p := by
  induction jobs generalizing jobs' except with
  | nil =>
      cases jobs' with
      | nil => rfl
      | cons => cases h.length
  | cons j rest ih =>
      cases jobs' with
      | nil => cases h.length
      | cons j' rest' =>
          by_cases he : except 0
          · have hj := hp j (h.role 0 he j (Or.inl rfl))
            have hj' := hp j' (h.role 0 he j' (Or.inr rfl))
            rw [List.find?_cons_of_neg (Bool.eq_false_iff.mp hj),
              List.find?_cons_of_neg (Bool.eq_false_iff.mp hj'), ih h.tail]
          · have hj : j = j' := Option.some.inj (h.same 0 he)
            rw [hj, List.find?_cons, List.find?_cons, ih h.tail]

theorem append (h : AgreeExcept except jobs jobs') (hlt : ∀ i, except i → i < jobs.length)
    (more : List Job) :
    AgreeExcept except (jobs ++ more) (jobs' ++ more) where
  length := by rw [List.length_append, List.length_append, h.length]
  same i hi := by
    by_cases hi' : i < jobs.length
    · rw [List.getElem?_append_left hi', List.getElem?_append_left (h.length ▸ hi'), h.same i hi]
    · have hge : jobs.length ≤ i := by omega
      rw [List.getElem?_append_right hge, List.getElem?_append_right (h.length ▸ hge), h.length]
  role i hi j hj := by
    have hi' := hlt i hi
    rw [List.getElem?_append_left hi', List.getElem?_append_left (h.length ▸ hi')] at hj
    exact h.role i hi j hj

theorem patchAll (h : AgreeExcept except jobs jobs') :
    AgreeExcept except (Job.patchAll jobs) (Job.patchAll jobs') := by
  have hoffsets : eventOffsets jobs = eventOffsets jobs' := by
    rw [eventOffsets, eventOffsets, h.find? fun j hj => by simp [hj]]
  rw [Job.patchAll, Job.patchAll, hoffsets]
  cases eventOffsets jobs' with
  | none => exact h
  | some offsets =>
      refine h.map fun j => ?_
      rw [patch]
      split <;> rfl

end Job.AgreeExcept

/-- Another function graph takes the place of one, with the same name and for the same function. -/
structure CompilationUnit.Swaps (u : CompilationUnit) (k : Nat) (g g' : ScriptGraph) : Prop where
  graph : u.functionGraphs[k]? = some g
  name : g'.name = g.name
  functionName : g'.functionName = g.functionName

def CompilationUnit.swap (u : CompilationUnit) (k : Nat) (g : ScriptGraph) : CompilationUnit :=
  { u with functionGraphs := u.functionGraphs.set k g }

namespace Schema

theorem addFunctions_congr {gs gs' : List ScriptGraph}
    (h : gs.map (fun g => (g.name, g.functionName)) = gs'.map fun g => (g.name, g.functionName))
    (functions : OrderedMap String Nat) (index : Nat) :
    addFunctions functions index gs = addFunctions functions index gs' := by
  induction gs generalizing gs' functions index with
  | nil =>
      cases gs' with
      | nil => rfl
      | cons => cases h
  | cons g rest ih =>
      cases gs' with
      | nil => cases h
      | cons g' rest' =>
          obtain ⟨hg, hrest⟩ := List.cons.inj h
          obtain ⟨hname, hfunction⟩ := Prod.mk.inj hg
          rw [addFunctions, addFunctions, hname, hfunction]
          split
          · rw [ih hrest]
          · exact ih hrest _ _

theorem ofUnit_swap {u : CompilationUnit} {k : Nat} {g g' : ScriptGraph} (h : u.Swaps k g g') :
    ofUnit (u.swap k g') = ofUnit u := by
  have hgraphs : (u.functionGraphs.set k g').map (fun g => (g.name, g.functionName)) =
      u.functionGraphs.map fun g => (g.name, g.functionName) := by
    rw [List.map_set, h.name, h.functionName]
    refine List.ext_getElem? fun i => ?_
    rw [List.getElem?_set, List.getElem?_map]
    split
    · next hk =>
        subst hk
        rw [List.length_map, h.graph]
        exact if_pos (List.getElem?_eq_some_iff.mp h.graph).1
    · rfl
  rw [ofUnit, ofUnit, CompilationUnit.swap, addFunctions_congr hgraphs]
  rfl

/-- The graphs are entered one after the other. -/
theorem addFunctions_indices {gs : List ScriptGraph} {functions : OrderedMap String Nat} {index : Nat}
    (hlt : ∀ k ∈ functions.values, k < index) (hnodup : functions.values.Nodup) :
    (∀ k ∈ (addFunctions functions index gs).1.values, k < index + gs.length) ∧
      (addFunctions functions index gs).1.values.Nodup := by
  induction gs generalizing functions index with
  | nil => exact ⟨hlt, hnodup⟩
  | cons g rest ih =>
      have hle : index + (g :: rest).length = index + 1 + rest.length := by
        rw [List.length_cons]
        omega
      rw [addFunctions, hle]
      split
      · exact ih (fun k hk => Nat.lt_succ_of_lt (hlt k hk)) hnodup
      · next hnew =>
          have hvalues : (functions.insert g.functionName index).values = functions.values ++ [index] := by
            rw [OrderedMap.values, OrderedMap.entries_insert_of_new (Bool.eq_false_iff.mpr hnew),
              List.map_append]
            rfl
          refine ih ?_ ?_ <;> rw [hvalues]
          · intro k hk
            rcases List.mem_append.mp hk with hk | hk
            · exact Nat.lt_succ_of_lt (hlt k hk)
            · cases List.mem_singleton.mp hk
              exact Nat.lt_succ_self index
          · refine List.nodup_append.mpr ⟨hnodup, List.nodup_singleton index, fun k hk i hi => ?_⟩
            cases List.mem_singleton.mp hi
            exact Nat.ne_of_lt (hlt k hk)

theorem functions_indices (u : CompilationUnit) :
    (∀ k ∈ (ofUnit u).1.functions.values, k < u.functionGraphs.length) ∧
      (ofUnit u).1.functions.values.Nodup := by
  rw [functions_ofUnit, ← Nat.zero_add u.functionGraphs.length]
  exact addFunctions_indices (List.forall_mem_nil _) List.nodup_nil

end Schema

/-- The function graph that a function of the class is made from, by its place. Event stubs and the event
graph are made from none. -/
def CompilationUnit.origin? (u : CompilationUnit) (i : Nat) : Option Nat :=
  (Schema.ofUnit u).1.functions.values[i]?

theorem CompilationUnit.origin?_unique {u : CompilationUnit} {i j k : Nat} (hi : u.origin? i = some k)
    (hj : u.origin? j = some k) : i = j := by
  obtain ⟨hi', hik⟩ := List.getElem?_eq_some_iff.mp hi
  obtain ⟨hj', hjk⟩ := List.getElem?_eq_some_iff.mp hj
  exact (List.Nodup.getElem_inj_iff (Schema.functions_indices u).2).mp (hik.trans hjk.symm)

namespace Job

variable {u : CompilationUnit} {k : Nat} {g g' : ScriptGraph}

/-- The function that a function graph is compiled to. -/
def ofFunction? (graphs : List ScriptGraph) (f : String × Nat) : Option Job :=
  (graphs[f.2]?).map fun g => { work := .ofAuthored f.1 .function g }

theorem getElem?_filterMap {α β : Type} {h : α → Option β} {l : List α}
    (hl : ∀ a ∈ l, (h a).isSome = true) (i : Nat) :
    (l.filterMap h)[i]? = (l[i]?).bind h := by
  induction l generalizing i with
  | nil => rfl
  | cons a rest ih =>
      obtain ⟨ha, hrest⟩ := List.forall_mem_cons.mp hl
      obtain ⟨b, hb⟩ := Option.isSome_iff_exists.mp ha
      rw [List.filterMap_cons_some hb]
      cases i with
      | zero => exact hb.symm
      | succ i => exact ih hrest i

theorem ofFunction?_isSome {graphs : List ScriptGraph}
    (hlength : graphs.length = u.functionGraphs.length) :
    ∀ f ∈ (Schema.ofUnit u).1.functions.entries, (ofFunction? graphs f).isSome = true := by
  intro f hf
  have hlt := (Schema.functions_indices u).1 f.2 (List.mem_map_of_mem hf)
  rw [ofFunction?, Option.isSome_map, List.getElem?_eq_getElem (hlength ▸ hlt), Option.isSome_some]

theorem length_functions {graphs : List ScriptGraph} (hlength : graphs.length = u.functionGraphs.length) :
    ((Schema.ofUnit u).1.functions.entries.filterMap (ofFunction? graphs)).length =
      (Schema.ofUnit u).1.functions.entries.length := by
  rw [List.length_filterMap_eq_countP]
  exact List.countP_eq_length.mpr (ofFunction?_isSome hlength)

theorem functions_agree (h : u.Swaps k g g') :
    AgreeExcept (fun i => u.origin? i = some k)
      ((Schema.ofUnit u).1.functions.entries.filterMap (ofFunction? u.functionGraphs))
      ((Schema.ofUnit u).1.functions.entries.filterMap (ofFunction? (u.swap k g').functionGraphs)) := by
  have hlength : (u.swap k g').functionGraphs.length = u.functionGraphs.length := List.length_set ..
  have hplace (i : Nat) := getElem?_filterMap (ofFunction?_isSome (u := u) rfl) i
  have hplace' (i : Nat) := getElem?_filterMap (ofFunction?_isSome hlength) i
  refine ⟨(length_functions rfl).trans (length_functions hlength).symm, fun i hi => ?_,
    fun i hi j hj => ?_⟩
  · rw [hplace, hplace']
    cases hf : (Schema.ofUnit u).1.functions.entries[i]? with
    | none => rfl
    | some f =>
        have hne : k ≠ f.2 := by
          rintro rfl
          rw [CompilationUnit.origin?, OrderedMap.values, List.getElem?_map, hf] at hi
          exact hi rfl
        simp only [Option.bind_some, ofFunction?, CompilationUnit.swap, List.getElem?_set_ne hne]
  · rw [hplace, hplace'] at hj
    rcases hj with hj | hj
    all_goals
      obtain ⟨f, _, hf⟩ := Option.bind_eq_some_iff.mp hj
      obtain ⟨_, _, rfl⟩ := Option.map_eq_some_iff.mp hf
      rfl

theorem ofUnit_agree (h : u.Swaps k g g') :
    AgreeExcept (fun i => u.origin? i = some k) (ofUnit u (Schema.ofUnit u).1)
      (ofUnit (u.swap k g') (Schema.ofUnit u).1) := by
  have hfunctions := functions_agree h
  have hlt (i : Nat) (hi : u.origin? i = some k) :
      i < ((Schema.ofUnit u).1.functions.entries.filterMap (ofFunction? u.functionGraphs)).length := by
    have hlt := (List.getElem?_eq_some_iff.mp hi).1
    rw [OrderedMap.values, List.length_map] at hlt
    rw [length_functions rfl]
    exact hlt
  have hevents : EventGraph.ofUnit (u.swap k g') = EventGraph.ofUnit u := rfl
  have hpages : (u.swap k g').eventGraphs = u.eventGraphs := rfl
  simp only [ofUnit, hevents, hpages]
  split
  · exact hfunctions
  · rw [List.append_assoc, List.append_assoc]
    exact hfunctions.append hlt _

end Job

/-- The log of a class is about the class itself, and then what each of its functions reports. -/
def CompiledClass.Logs (cls : CompiledClass) (reports : List MessageLog) : Prop :=
  reports.length = cls.functions.length ∧ ∃ log, cls.diagnostics = log ++ reports.flatten

namespace Compiler

variable {c : Compiler} {u : CompilationUnit} {cls : CompiledClass} {k : Nat} {g g' : ScriptGraph}

def last (c : Compiler) (u : CompilationUnit) : List Job := match c.options.mode with
  | .skeleton => c.registered u
  | .full => Job.patchAll (c.built u)

def reports (c : Compiler) (u : CompilationUnit) : List MessageLog :=
  (c.last u).map fun j => j.work.diagnostics

theorem compile_cases (hreg : c.registry = .standard) (hcheck : c.options.check = .ok ())
    (hcancel : c.cancelled = false) :
    c.compile u = .error (.crashed u.name) ∨ ∃ cls, c.compile u = .ok cls ∧
      cls.functions = (c.last u).map (Job.finish c.options) ∧ cls.Logs (c.reports u) := by
  have hlogs (cls : CompiledClass) (log : MessageLog)
      (hf : cls.functions = (c.last u).map (Job.finish c.options))
      (hd : cls.diagnostics = log ++ (c.last u).flatMap fun j => j.work.diagnostics) :
        cls.Logs (c.reports u) := by
    rw [List.flatMap_def] at hd
    exact ⟨by rw [hf, reports, List.length_map, List.length_map], log, hd⟩
  cases hmode : c.options.mode with
  | skeleton =>
      have hlast : c.last u = c.registered u := by rw [last, hmode]
      rw [compile_skeleton hcheck hcancel hmode]
      split
      · exact Or.inl rfl
      · refine Or.inr ⟨_, rfl, ?_, hlogs _ (log u) ?_ ?_⟩ <;> rw [hlast] <;> rfl
  | full =>
      have hlast : c.last u = Job.patchAll (c.built u) := by rw [last, hmode]
      let issues := (((c.layout u).addPromoted (c.promoted u)).defaultObject (c.env u).schema).2
      rw [compile_full hreg hcheck hcancel hmode]
      split
      · exact Or.inl rfl
      · refine Or.inr ⟨_, rfl, ?_, hlogs _ (log u ++ issues.map (.ofFunction u.name)) ?_ ?_⟩ <;>
          rw [hlast] <;> rfl

theorem env_swap (c : Compiler) (h : u.Swaps k g g') : c.env (u.swap k g') = c.env u := by
  rw [env, env, Schema.ofUnit_swap h]

theorem registered_agree (hreg : c.registry = .standard) (h : u.Swaps k g g') :
    Job.AgreeExcept (fun i => u.origin? i = some k) (c.registered u) (c.registered (u.swap k g')) := by
  rw [registered, registered, env_swap c h, hreg]
  exact (Job.ofUnit_agree h).map fun j => (Job.registerSignature_sameFunction _ u j).role

theorem built_agree (hreg : c.registry = .standard) (h : u.Swaps k g g') :
    Job.AgreeExcept (fun i => u.origin? i = some k) (c.built u) (c.built (u.swap k g')) := by
  rw [built, built, precompiled, precompiled, env_swap c h, hreg]
  refine Job.AgreeExcept.map ?_ fun j => (Job.compileBody_same _ j).work.role
  exact (registered_agree hreg h).map fun j => (Job.precompile_same _ _ j).work.role

theorem last_agree (hreg : c.registry = .standard) (h : u.Swaps k g g') :
    Job.AgreeExcept (fun i => u.origin? i = some k) (c.last u) (c.last (u.swap k g')) := by
  rw [last, last]
  cases c.options.mode with
  | skeleton => exact registered_agree hreg h
  | full => exact (built_agree hreg h).patchAll

/-- Functions are compiled in isolation: other contents of one function graph, right or wrong, change no
other function and nothing that another function reports, unless a unit is too large to be compiled. -/
theorem compile_isolates (hreg : c.registry = .standard) (hcheck : c.options.check = .ok ())
    (hcancel : c.cancelled = false) (h : u.Swaps k g g') :
    (c.compile u = .error (.crashed u.name) ∧ c.Overloads u ∨
      c.compile (u.swap k g') = .error (.crashed u.name) ∧ c.Overloads (u.swap k g')) ∨
      ∃ cls cls', c.compile u = .ok cls ∧ c.compile (u.swap k g') = .ok cls' ∧
        cls.functions.length = cls'.functions.length ∧ cls.Logs (c.reports u) ∧
          cls'.Logs (c.reports (u.swap k g')) ∧
        (∀ i j, u.origin? i = some k → u.origin? j = some k → i = j) ∧
        ∀ i, u.origin? i ≠ some k →
          cls.functions[i]? = cls'.functions[i]? ∧ (c.reports u)[i]? = (c.reports (u.swap k g'))[i]? := by
  have hagree := last_agree hreg h
  rcases compile_cases (u := u) hreg hcheck hcancel with hcrash | ⟨cls, hcls, hfunctions, hlogs⟩
  · exact Or.inl (Or.inl ⟨hcrash, (compile_crashes_iff hreg hcheck hcancel).mp hcrash⟩)
  · rcases compile_cases (u := u.swap k g') hreg hcheck hcancel with
      hcrash | ⟨cls', hcls', hfunctions', hlogs'⟩
    · exact Or.inl (Or.inr ⟨hcrash,
        (compile_crashes_iff (u := u.swap k g') hreg hcheck hcancel).mp hcrash⟩)
    · refine Or.inr ⟨cls, cls', hcls, hcls', ?_, hlogs, hlogs',
        fun i j => CompilationUnit.origin?_unique, fun i hi => ⟨?_, ?_⟩⟩
      · rw [hfunctions, hfunctions', List.length_map, List.length_map, hagree.length]
      · rw [hfunctions, hfunctions', List.getElem?_map, List.getElem?_map, hagree.same i hi]
      · rw [reports, reports, List.getElem?_map, List.getElem?_map, hagree.same i hi]

def brokenRing : ScriptGraph := { name := "ring" }

theorem compile_broken : ∃ cls, compile {} (bellWith brokenRing) = .ok cls :=
  compile_of_schema (schema_bellWith (by cbv)) (by cbv)

theorem abandoned_bellWith {g : ScriptGraph} (hname : g.functionName = "ring")
    (hcls : compile {} (bellWith g) = .ok cls) :
    cls.functions.map CompiledFunction.abandoned = (Job.ofUnit (bellWith g) bellEnv.schema).map fun j =>
      ((j.prepared bellEnv (bellWith g)).compileBody .standard bellEnv).abandoned := by
  rw [functions_of_compile rfl hcls, List.map_map]
  refine (Job.map_patchAll (fun _ _ => rfl) _).trans ?_
  rw [built_standard rfl, env_bellWith hname, List.map_map]
  rfl

theorem bell_isolates :
    ∃ cls cls', compile {} bell = .ok cls ∧ compile {} (bellWith brokenRing) = .ok cls' ∧
    cls.functions.map CompiledFunction.abandoned = [false, false, false] ∧
    cls'.functions.map CompiledFunction.abandoned = [true, false, false] ∧
    cls.functions[1]? = cls'.functions[1]? ∧ cls.functions[2]? = cls'.functions[2]? := by
  have hswaps : bell.Swaps 0 ringGraph brokenRing := ⟨rfl, rfl, by cbv⟩
  obtain ⟨a, ha, _⟩ := compile_bell
  obtain ⟨b, hb⟩ := compile_broken
  rcases compile_isolates (c := {}) rfl rfl rfl hswaps with
    (⟨hcrash, -⟩ | ⟨hcrash, -⟩) | ⟨cls, cls', hcls, hcls', _, _, _, _, hsame⟩
  · cases ha.symm.trans hcrash
  · cases hb.symm.trans hcrash
  · have horigin (i : Nat) (hi : 1 ≤ i) : bell.origin? i ≠ some 0 := by
      have hschema : (Schema.ofUnit bell).1 = bellEnv.schema := congrArg Env.schema env_bell
      rw [CompilationUnit.origin?, hschema]
      cases i with
      | zero => cases hi
      | succ i => exact (Option.some_ne_none 0).symm
    refine ⟨cls, cls', hcls, hcls', ?_, ?_, (hsame 1 (horigin 1 (by omega))).1,
      (hsame 2 (horigin 2 (by omega))).1⟩
    · exact (abandoned_bellWith (by cbv) hcls).trans (by cbv)
    · exact (abandoned_bellWith (by cbv) hcls').trans (by cbv)

end Compiler

end VisualScript
