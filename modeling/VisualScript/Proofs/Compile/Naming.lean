import VisualScript.Proofs.Compile.Isolation
import VisualScript.Proofs.Compile.Success
import VisualScript.Proofs.Event.Naming

namespace VisualScript

/-- One name, one thing: functions have names of their own, are listed by them with their signatures, and
no member has such a name. -/
structure CompiledClass.NamesApart (cls : CompiledClass) : Prop where
  functions : (cls.functions.map CompiledFunction.name).Nodup
  signatures : ∀ f ∈ cls.functions, cls.layout.functions.get? f.name = some f.signature
  members : ∀ f ∈ cls.functions, cls.layout.members.contains f.name = false

namespace CompilationUnit

abbrev Invents (u : CompilationUnit) (name : String) : Prop :=
  EventGraph.Invents u (Schema.ofUnit u).1 name

def HasEventGraph (u : CompilationUnit) : Prop := u.eventGraphs ≠ [] ∨ ∃ name, u.Invents name

/-- The names of the functions that a unit is compiled to. -/
inductive Compiles (u : CompilationUnit) : String → Prop
  | function {g : ScriptGraph} : g ∈ u.functionGraphs → Compiles u g.functionName
  | event {name : String} : name ∈ Schema.eventNames u.eventGraphs → Compiles u name
  | invented {name : String} : u.Invents name → Compiles u name
  | eventGraph : u.HasEventGraph → Compiles u (Schema.eventGraphName u.name)

/-- No function graph has the name of an event, and nothing else has that of the event graph. -/
structure FunctionsApart (u : CompilationUnit) : Prop where
  events : ∀ g ∈ u.functionGraphs, g.functionName ∉ Schema.eventNames u.eventGraphs
  eventGraph : u.HasEventGraph → (∀ g ∈ u.functionGraphs, g.functionName ≠ Schema.eventGraphName u.name) ∧
    Schema.eventGraphName u.name ∉ Schema.eventNames u.eventGraphs ∧
      ¬ u.Invents (Schema.eventGraphName u.name)

abbrev events (u : CompilationUnit) : OrderedMap String EventInfo :=
  (EventGraph.ofUnit u (Schema.ofUnit u).1).1.events

def functionNames (u : CompilationUnit) : List String :=
  (Schema.ofUnit u).1.functions.keys ++
    if u.events.isEmpty && u.eventGraphs.isEmpty then [] else u.events.keys ++
      [Schema.eventGraphName u.name]

variable {u : CompilationUnit} {name : String}

theorem mem_functions :
    name ∈ (Schema.ofUnit u).1.functions.keys ↔ ∃ g ∈ u.functionGraphs, g.functionName = name :=
  (OrderedMap.contains_iff_mem_keys _ _).symm.trans (Schema.contains_functions u)

theorem mem_events : name ∈ u.events.keys ↔ name ∈ Schema.eventNames u.eventGraphs ∨ u.Invents name :=
  (OrderedMap.contains_iff_mem_keys _ _).symm.trans (EventGraph.contains_ofUnit u _)

theorem pages_of_event (h : name ∈ Schema.eventNames u.eventGraphs) : u.eventGraphs ≠ [] := by
  intro hnil
  obtain ⟨page, hpage, -⟩ := Schema.mem_eventNames.mp h
  rw [hnil] at hpage
  cases hpage

theorem hasEventGraph_iff : u.HasEventGraph ↔ ¬ (u.events.isEmpty && u.eventGraphs.isEmpty) = true := by
  have hempty : u.events.isEmpty = true ↔ ∀ name, name ∉ u.events.keys := by
    rw [OrderedMap.isEmpty, List.isEmpty_iff, OrderedMap.keys, ← List.eq_nil_iff_forall_not_mem,
      List.map_eq_nil_iff]
  rw [Bool.and_eq_true, hempty, List.isEmpty_iff, not_and_or, not_forall]
  simp only [not_not, mem_events]
  constructor
  · rintro (h | ⟨name, h⟩)
    · exact Or.inr h
    · exact Or.inl ⟨name, Or.inr h⟩
  · rintro (⟨name, h | h⟩ | h)
    · exact Or.inl (pages_of_event h)
    · exact Or.inr ⟨name, h⟩
    · exact Or.inl h

theorem mem_functionNames : name ∈ u.functionNames ↔ u.Compiles name := by
  rw [functionNames, List.mem_append, mem_functions]
  constructor
  · rintro (⟨g, hg, rfl⟩ | h)
    · exact .function hg
    · split at h
      · cases h
      · next hevents =>
          rw [List.mem_append, mem_events, List.mem_singleton] at h
          rcases h with (h | h) | rfl
          · exact .event h
          · exact .invented h
          · exact .eventGraph (hasEventGraph_iff.mpr hevents)
  · have hbehind (hgraph : u.HasEventGraph) (h : name ∈ u.events.keys ∨
        name = Schema.eventGraphName u.name) :
        name ∈ if u.events.isEmpty && u.eventGraphs.isEmpty then []
          else u.events.keys ++ [Schema.eventGraphName u.name] := by
      rw [if_neg (hasEventGraph_iff.mp hgraph), List.mem_append, List.mem_singleton]
      exact h
    intro h
    cases h with
    | function hg => exact Or.inl ⟨_, hg, rfl⟩
    | event h => exact Or.inr (hbehind (Or.inl (pages_of_event h)) (Or.inl (mem_events.mpr (Or.inl h))))
    | invented h => exact Or.inr (hbehind (Or.inr ⟨_, h⟩) (Or.inl (mem_events.mpr (Or.inr h))))
    | eventGraph h => exact Or.inr (hbehind h (Or.inr rfl))

theorem functions_ne_iff :
    (∀ a ∈ (Schema.ofUnit u).1.functions.keys, ∀ b ∈ u.events.keys ++
      [Schema.eventGraphName u.name], a ≠ b) ↔
      (∀ g ∈ u.functionGraphs, g.functionName ∉ Schema.eventNames u.eventGraphs) ∧
        ∀ g ∈ u.functionGraphs, g.functionName ≠ Schema.eventGraphName u.name := by
  simp only [List.mem_append, List.mem_singleton, mem_functions, mem_events]
  constructor
  · intro hne
    exact ⟨fun g hg he => hne _ ⟨g, hg, rfl⟩ _ (Or.inl (Or.inl he)) rfl,
      fun g hg => hne _ ⟨g, hg, rfl⟩ _ (Or.inr rfl)⟩
  · rintro ⟨hevents, hgraphs⟩ _ ⟨g, hg, rfl⟩ _ ((he | hnew) | rfl)
    · exact fun heq => hevents g hg (heq ▸ he)
    · -- An event is made up only if there is no function graph for it.
      rintro rfl
      have hfunction := (Schema.contains_functions u).mpr ⟨g, hg, rfl⟩
      rw [hnew.function] at hfunction
      cases hfunction
    · exact hgraphs g hg

theorem nodup_events : (u.events.keys ++ [Schema.eventGraphName u.name]).Nodup ↔
    Schema.eventGraphName u.name ∉ Schema.eventNames u.eventGraphs ∧
      ¬ u.Invents (Schema.eventGraphName u.name) := by
  have hkeys : u.events.keys.Nodup := u.events.nodup
  rw [← List.concat_eq_append, List.nodup_concat, ← not_or, ← mem_events]
  exact and_iff_left hkeys

theorem nodup_functionNames : u.functionNames.Nodup ↔ u.FunctionsApart := by
  have hkeys : (Schema.ofUnit u).1.functions.keys.Nodup := (Schema.ofUnit u).1.functions.nodup
  rw [functionNames]
  split
  · next hnone =>
      have hno : ¬ u.HasEventGraph := fun h => hasEventGraph_iff.mp h hnone
      rw [List.append_nil]
      exact ⟨fun _ => ⟨fun g _ h => hno (Or.inl (pages_of_event h)), fun h => absurd h hno⟩,
        fun _ => hkeys⟩
  · next hsome =>
      have hgraph := hasEventGraph_iff.mpr hsome
      rw [List.nodup_append, functions_ne_iff, nodup_events]
      constructor
      · rintro ⟨-, hlast, hevents, hgraphs⟩
        exact ⟨hevents, fun _ => ⟨hgraphs, hlast⟩⟩
      · intro hapart
        obtain ⟨hgraphs, hlast⟩ := hapart.eventGraph hgraph
        exact ⟨hkeys, hlast, hapart.events, hgraphs⟩

end CompilationUnit

namespace Job

theorem functions_named (u : CompilationUnit) :
    ((Schema.ofUnit u).1.functions.entries.filterMap (ofFunction? u.functionGraphs)).map
      (fun j => j.work.function) =
      (Schema.ofUnit u).1.functions.keys := by
  have hname (f : String × Nat) (hf : f ∈ (Schema.ofUnit u).1.functions.entries) :
      (ofFunction? u.functionGraphs f).map (fun j => j.work.function) = some f.1 := by
    obtain ⟨j, hj⟩ := Option.isSome_iff_exists.mp (ofFunction?_isSome rfl f hf)
    obtain ⟨g, _, rfl⟩ := Option.map_eq_some_iff.mp hj
    rw [hj]
    rfl
  rw [List.map_filterMap, List.filterMap_congr hname, List.filterMap_eq_map']
  rfl

theorem events_named (u : CompilationUnit) :
    (u.events.values.map ofEvent).map (fun j => j.work.function) = u.events.keys := by
  rw [List.map_map]
  exact OrderedMap.map_values fun name info h => ((EventGraph.ofUnit_consolidated u _).2.1 name info h).1

theorem eventGraph_named (function : String) (e : EventGraph) (issues : List (Issue × NodeId)) :
    (ofEventGraph function e issues).work.function = function :=
  (Working.noted_foldl_report (fun _ (i : Issue × NodeId) => i.1) (fun _ i => some i.2) none _ _).function

theorem ofUnit_named (u : CompilationUnit) :
    (ofUnit u (Schema.ofUnit u).1).map (fun j => j.work.function) = u.functionNames := by
  have hfunctions := functions_named u
  unfold ofFunction? at hfunctions
  simp only [ofUnit, CompilationUnit.functionNames]
  split
  · rw [List.append_nil, hfunctions]
  · rw [List.map_append, List.map_append, hfunctions, events_named, List.map_singleton, eventGraph_named,
      Schema.eventGraphFunction_ofUnit, List.append_assoc]

theorem registerSignature_name (env : Env) (u : CompilationUnit) (j : Job) :
    (j.registerSignature .standard env u).signature.name =
      (j.registerSignature .standard env u).work.function := by
  have hname (declared : Signature) (inherited : Option (String × Signature)) (mustOverride : Bool) :
      (SignatureMatch.resolve declared inherited mustOverride).signature.name = declared.name := by
    cases inherited <;> rfl
  simp only [registerSignature]
  rw [hname]
  exact (Working.noted_foldl_report (fun _ (i : Issue) => i) (fun w _ => w.entry) none _ _).function.symm

end Job

namespace Compiler

variable {c : Compiler} {u : CompilationUnit} {cls : CompiledClass} {name : String}

section Outcome

variable (h : c.compile u = .ok cls)

include h

theorem members_of_compile :
    cls.layout.members.contains name = true ↔ (Schema.ofUnit u).1.members.contains name = true ∨
    c.options.mode = .full ∧ ∃ m ∈ c.promoted u, m.name = name := by
  have hdeclared : (c.layout u).members.contains name = (Schema.ofUnit u).1.members.contains name := by
    have hget : (c.layout u).members.get? name =
        ((Schema.ofUnit u).1.members.get? name).map ClassLayout.slotOf := by
      rw [members_layout]
      exact ClassLayout.get?_ofSchema (Schema.ofUnit_named u) u name
    rw [OrderedMap.contains_eq_isSome, OrderedMap.contains_eq_isSome, hget, Option.isSome_map]
  cases hmode : c.options.mode with
  | skeleton =>
      have hmembers : cls.layout.members = (c.layout u).members := by rw [eq_skeleton hmode h]; rfl
      rw [hmembers, hdeclared]
      simp
  | full =>
      have hmembers : cls.layout.members = ((c.layout u).addPromoted (c.promoted u)).members := by
        rw [eq_finished hmode h]; rfl
      rw [hmembers, OrderedMap.contains_eq_isSome, ClassLayout.get?_addPromoted, Option.isSome_or,
        Option.isSome_map,
        ← OrderedMap.contains_eq_isSome, hdeclared]
      simp

theorem listed_of_compile :
    cls.layout.functions =
      OrderedMap.ofList ((c.registered u).map fun j => (j.signature.name, j.signature)) := by
  have hfold (jobs : List Job) (l : ClassLayout) :
      (jobs.foldl (fun l j => l.addFunction j.signature) l).functions =
      jobs.foldl (fun m j => m.insert j.signature.name j.signature) l.functions := by
    induction jobs generalizing l with
    | nil => rfl
    | cons j rest ih => exact ih _
  have hlayout : (c.layout u).functions =
      OrderedMap.ofList ((c.registered u).map fun j => (j.signature.name, j.signature)) := by
    rw [layout, hfold, OrderedMap.ofList, List.foldl_map]
    rfl
  rw [← hlayout]
  cases hmode : c.options.mode with
  | skeleton => rw [eq_skeleton hmode h]; rfl
  | full => rw [eq_finished hmode h]; rfl

theorem members_apart_iff : (∀ name, u.Compiles name → cls.layout.members.contains name = false) ↔
    (∀ name, u.Invents name → (Schema.ofUnit u).1.members.contains name = false) ∧
      (c.options.mode = .full → ∀ m ∈ c.promoted u, ¬ u.Compiles m.name) := by
  constructor
  · intro hapart
    refine ⟨fun name hnew => ?_, fun hmode m hm hname => ?_⟩
    · rw [Bool.eq_false_iff]
      intro hc
      exact Bool.eq_false_iff.mp (hapart name (.invented hnew)) ((members_of_compile h).mpr (Or.inl hc))
    · exact Bool.eq_false_iff.mp (hapart m.name hname)
        ((members_of_compile h).mpr (Or.inr ⟨hmode, m, hm, rfl⟩))
  · rintro ⟨hinvented, hpromoted⟩ name hname
    -- Members gave way to what is authored, but not to what is made up.
    have hdeclared : (Schema.ofUnit u).1.members.contains name = false := by
      have havoids := Schema.ofUnit_avoids u name
      rw [Schema.mem_callables] at havoids
      cases hname with
      | function hg => exact havoids (Or.inl ⟨_, hg, rfl⟩)
      | event he => exact havoids (Or.inr (Or.inl he))
      | invented hnew => exact hinvented name hnew
      | eventGraph => exact havoids (Or.inr (Or.inr rfl))
    rw [Bool.eq_false_iff, Ne, members_of_compile h, hdeclared]
    rintro (hc | ⟨hmode, m, hm, rfl⟩)
    · cases hc
    · exact hpromoted hmode m hm hname

variable (hreg : c.registry = .standard)

include hreg

theorem faces_of_compile : cls.functions.map CompiledFunction.face = (c.registered u).map Job.face := by
  cases hmode : c.options.mode with
  | skeleton =>
      rw [eq_skeleton hmode h, skeleton, List.map_map]
      rfl
  | full =>
      have hfunctions : cls.functions = (Job.patchAll (c.built u)).map (Job.finish c.options) := by
        rw [eq_finished hmode h]; rfl
      rw [hfunctions, List.map_map, Job.face_finish, Job.map_patchAll fun _ _ => rfl, faces_built hreg]

omit h in
theorem names_of_registered : (c.registered u).map (fun j => j.work.function) = u.functionNames := by
  rw [registered, hreg, List.map_map, ← Job.ofUnit_named]
  exact List.map_congr_left fun j _ => (Job.registerSignature_sameFunction _ u j).function

theorem names_of_compile : cls.functions.map CompiledFunction.name = u.functionNames := by
  have hfaces := congrArg (List.map FunctionFace.name) (faces_of_compile h hreg)
  rw [List.map_map, List.map_map] at hfaces
  exact hfaces.trans (names_of_registered hreg)

theorem signatures_of_compile (hnodup : u.functionNames.Nodup) :
    ∀ f ∈ cls.functions, cls.layout.functions.get? f.name = some f.signature := by
  intro f hf
  have hface : f.face ∈ (c.registered u).map Job.face := faces_of_compile h hreg ▸ List.mem_map_of_mem hf
  obtain ⟨j, hj, he⟩ := List.mem_map.mp hface
  have hname {j : Job} (hj : j ∈ c.registered u) : j.signature.name = j.work.function := by
    rw [registered, hreg] at hj
    obtain ⟨j₀, -, rfl⟩ := List.mem_map.mp hj
    exact Job.registerSignature_name _ u j₀
  have hkeys : ((c.registered u).map fun j => (j.signature.name, j.signature)).map Prod.fst =
      u.functionNames := by
    rw [List.map_map, ← names_of_registered hreg]
    exact List.map_congr_left fun j hj => hname hj
  have hfunction : j.work.function = f.name := congrArg FunctionFace.name he
  have hsignature : j.signature = f.signature := congrArg FunctionFace.signature he
  -- Later signatures replace earlier ones of the same name, but there are none.
  rw [listed_of_compile h, OrderedMap.get?_ofList _ (hkeys ▸ hnodup), ← hfunction, ← hsignature,
    ← hname hj]
  exact List.mem_map_of_mem hj

end Outcome

structure NamesFree (c : Compiler) (u : CompilationUnit) : Prop extends u.FunctionsApart where
  invented : ∀ name, u.Invents name → (Schema.ofUnit u).1.members.contains name = false
  promoted : c.options.mode = .full → ∀ m ∈ c.promoted u, ¬ u.Compiles m.name

/-- Functions that meet and members that meet with what is made up go unnoticed: the names of a
class are apart just if those it is made from are. -/
theorem names_apart_iff (hreg : c.registry = .standard) (h : c.compile u = .ok cls) :
    cls.NamesApart ↔ c.NamesFree u := by
  have hnames := names_of_compile h hreg
  have hmembers : (∀ f ∈ cls.functions, cls.layout.members.contains f.name = false) ↔
      ∀ name, u.Compiles name → cls.layout.members.contains name = false := by
    simp only [← CompilationUnit.mem_functionNames, ← hnames, List.forall_mem_map]
  rw [members_apart_iff h] at hmembers
  constructor
  · intro hapart
    obtain ⟨hinvented, hpromoted⟩ := hmembers.mp hapart.members
    exact ⟨CompilationUnit.nodup_functionNames.mp (hnames ▸ hapart.functions), hinvented, hpromoted⟩
  · intro hfree
    have hnodup := CompilationUnit.nodup_functionNames.mpr hfree.toFunctionsApart
    exact ⟨hnames ▸ hnodup, signatures_of_compile h hreg hnodup,
      hmembers.mpr ⟨hfree.invented, hfree.promoted⟩⟩

def belfry : CompilationUnit :=
  { bell with interfaces := [{ name := "Clock", functions := [{ name := "strike" }] }] }

theorem schema_belfry : Schema.ofUnit belfry = (bellEnv.schema, []) := schema_bellWith (by cbv)

theorem env_belfry : env {} belfry = bellEnv := env_of_schema schema_belfry

theorem names_belfry : belfry.functionNames = ["ring", "Hit", "strike", "ExecuteEventGraph_Bell"] := by
  have hevents : (EventGraph.ofUnit belfry bellEnv.schema).1.events.keys = ["Hit", "strike"] := by cbv
  have hsome : ((EventGraph.ofUnit belfry bellEnv.schema).1.events.isEmpty &&
      belfry.eventGraphs.isEmpty) = false := Bool.and_false _
  rw [CompilationUnit.functionNames, CompilationUnit.events, schema_belfry, hevents, hsome]
  rfl

theorem compile_belfry :
    ∃ cls, compile {} belfry = .ok cls ∧ cls.isSuccess = true := success_of_schema schema_belfry (by cbv)

theorem promoted_belfry : promoted {} belfry = [⟨"Hit_force", ⟨.int, .single⟩, none⟩] := by
  rw [promoted, precompiled, registered, env_belfry]
  cbv

theorem free_belfry : NamesFree {} belfry where
  toFunctionsApart := by
    rw [← CompilationUnit.nodup_functionNames, names_belfry]
    decide
  invented name hnew := by
    obtain ⟨s, hs, -, rfl⟩ := hnew.required
    cases List.mem_singleton.mp hs
    rw [schema_belfry]
    rfl
  promoted _ m hm := by
    rw [promoted_belfry] at hm
    cases List.mem_singleton.mp hm
    rw [← CompilationUnit.mem_functionNames, names_belfry]
    decide

theorem belfry_names_apart : ∃ cls, compile {} belfry = .ok cls ∧ cls.isSuccess = true ∧
    cls.functions.map CompiledFunction.name = ["ring", "Hit", "strike", "ExecuteEventGraph_Bell"] ∧
      cls.NamesApart := by
  obtain ⟨cls, hcls, hsuccess⟩ := compile_belfry
  exact ⟨cls, hcls, hsuccess, (names_of_compile hcls rfl).trans names_belfry,
    (names_apart_iff rfl hcls).mpr free_belfry⟩

def gong : CompilationUnit where
  name := "Gong"
  functionGraphs := [{ name := "ring", slots := [some (ScriptNode.entry "ring")], nextOrder := 1 }]
  eventGraphs :=
    [{ name := "Events", slots := [some
      ((ScriptNode.event "ring").addPorts [.dataOut "force" ⟨.int, .single⟩])], nextOrder := 1 }]

def gongEnv : Env where
  schema :=
    { name := "Gong"
      functions := .ofList [("ring", 0)]
      events := ["ring"]
      eventGraphFunction := "ExecuteEventGraph_Gong" }

theorem schema_gong : Schema.ofUnit gong = (gongEnv.schema, []) := by
  have hgraph : Schema.eventGraphName "Gong" = "ExecuteEventGraph_Gong" := rfl
  have hevents : Schema.eventNames gong.eventGraphs = ["ring"] := by cbv
  have hfunctions : Schema.addFunctions ∅ 0 gong.functionGraphs = (.ofList [("ring", 0)], []) := by cbv
  have hname : gong.name = "Gong" := rfl
  simp only [Schema.ofUnit, hname, hgraph, hevents, hfunctions]
  rfl

theorem env_gong : env {} gong = gongEnv := env_of_schema schema_gong

theorem compile_gong :
    ∃ cls, compile {} gong = .ok cls ∧ cls.isSuccess = true := success_of_schema schema_gong (by cbv)

/-- Of the two functions of one name, only one is listed with its signature. -/
theorem gong_names_meet : ∃ cls, compile {} gong = .ok cls ∧ cls.isSuccess = true ∧
    cls.functions.map CompiledFunction.name = ["ring", "ring", "ExecuteEventGraph_Gong"] ∧
    cls.layout.functions.keys = ["ring", "ExecuteEventGraph_Gong"] ∧ ¬ cls.NamesApart := by
  obtain ⟨cls, hcls, hsuccess⟩ := compile_gong
  have hnames : cls.functions.map CompiledFunction.name = ["ring", "ring", "ExecuteEventGraph_Gong"] := by
    rw [names_of_compile hcls rfl, ← names_of_registered (c := {}) rfl, registered, env_gong]
    cbv
  refine ⟨cls, hcls, hsuccess, hnames, ?_, fun hapart => ?_⟩
  · rw [listed_of_compile hcls, registered, env_gong]
    cbv
  · have hnodup := hapart.functions
    rw [hnames] at hnodup
    revert hnodup
    decide

end Compiler

end VisualScript
