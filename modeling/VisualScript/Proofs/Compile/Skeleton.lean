import VisualScript.Proofs.Compile.Crashes
import VisualScript.Proofs.Compile.Success

namespace VisualScript

theorem Handler.register_congr {n : ScriptNode} {h : Handler}
    (hh : Registry.standard.handler? n = some h) {env env' : Env}
    (hschema : env'.schema = env.schema) : h.register env' = h.register env := by
  obtain ⟨options, schema⟩ := env
  obtain ⟨options', schema'⟩ := env'
  cases hschema
  rw [Handler.handler?_standard] at hh
  split at hh <;> cases hh <;> rfl

theorem Registry.registerNode_congr {env env' : Env} (hschema : env'.schema = env.schema) (id : NodeId) :
    standard.registerNode env' id = standard.registerNode env id := by
  funext w
  simp only [registerNode, Build.bind_apply, Build.get_apply]
  cases w.graph.node? id with
  | none => rfl
  | some n =>
      cases hh : standard.handler? n with
      | none => simp only [hh]
      | some h => simp only [hh, Handler.register_congr hh hschema]

theorem Working.registerTerms_congr {env env' : Env} (hschema : env'.schema = env.schema)
    (early : Bool) (w : Working) :
    w.registerTerms .standard env' early = w.registerTerms .standard env early := by
  have hnodes : Registry.standard.registerNode env' = Registry.standard.registerNode env :=
    funext (Registry.registerNode_congr hschema)
  rw [registerTerms, hnodes, registerTerms]

theorem Job.registerSignature_congr {env env' : Env} (hschema : env'.schema = env.schema)
    (u : CompilationUnit) (j : Job) :
    j.registerSignature .standard env' u = j.registerSignature .standard env u := by
  rw [registerSignature, Working.registerTerms_congr hschema, registerSignature]

namespace ClassLayout

def isVisible (m : MemberSlot) : Bool := m.origin ≠ .persistentFrame

theorem visible_ofSchema (u : CompilationUnit) (s : Schema) :
    ∀ m ∈ (ofSchema u s).members.entries, isVisible m.2 = true := by
  intro m hm
  obtain ⟨d, _, rfl⟩ := List.mem_map.mp (OrderedMap.mem_entries_ofList hm)
  cases hd : d.isComponent <;> simp [isVisible, slotOf, hd]

theorem addPromoted_entries (l : ClassLayout) (promoted : List PromotedMember) :
    ∃ more, (l.addPromoted promoted).members.entries = l.members.entries ++ more ∧ ∀ m ∈ more,
    isVisible m.2 = false := by
  have hrun (promoted : List PromotedMember) (members : OrderedMap String MemberSlot) :
      ∃ more, (promoted.foldl
        (fun members m => members.insertIfNew m.name ⟨m.name, m.type, .persistentFrame, m.default⟩)
        members).entries = members.entries ++ more ∧ ∀ m ∈ more, isVisible m.2 = false := by
    induction promoted generalizing members with
    | nil => exact ⟨[], (List.append_nil _).symm, List.forall_mem_nil _⟩
    | cons m rest ih =>
        obtain ⟨more, he, hmore⟩ :=
          ih (members.insertIfNew m.name ⟨m.name, m.type, .persistentFrame, m.default⟩)
        rw [List.foldl_cons, he]
        cases hm : members.contains m.name with
        | true => exact ⟨more, by rw [OrderedMap.insertIfNew, if_pos hm], hmore⟩
        | false =>
            refine ⟨(m.name, ⟨m.name, m.type, .persistentFrame, m.default⟩) :: more, ?_, ?_⟩
            · rw [OrderedMap.insertIfNew, hm, if_neg Bool.false_ne_true,
                OrderedMap.entries_insert_of_new hm, List.append_assoc]
              rfl
            · exact List.forall_mem_cons.mpr ⟨rfl, hmore⟩
  exact hrun promoted l.members

theorem filter_addPromoted {l : ClassLayout} (h : ∀ m ∈ l.members.entries, isVisible m.2 = true)
    (promoted : List PromotedMember) :
    ((l.addPromoted promoted).members.entries.filter fun m => isVisible m.2) = l.members.entries := by
  obtain ⟨more, he, hmore⟩ := l.addPromoted_entries promoted
  rw [he, List.filter_append, List.filter_eq_self.mpr h,
    List.filter_eq_nil_iff.mpr fun m hm => by simp [hmore m hm],
    List.append_nil]

end ClassLayout

/-- What other units see of a function. -/
structure FunctionFace where
  name : String
  role : FunctionRole
  signature : Signature
  overrideOf : Option String
  sourceGraph : String
  signatureHash : String

def CompiledFunction.face (f : CompiledFunction) : FunctionFace :=
  ⟨f.name, f.role, f.signature, f.overrideOf, f.sourceGraph, f.signatureHash⟩

/-- A class without bodies and one with bodies are the same to other units. -/
structure CompiledClass.Presents (skeleton full : CompiledClass) : Prop where
  functions : skeleton.functions.map CompiledFunction.face = full.functions.map CompiledFunction.face
  name : skeleton.layout.name = full.layout.name
  parent : skeleton.layout.parent = full.layout.parent
  interfaces : skeleton.layout.interfaces = full.layout.interfaces
  signatures : skeleton.layout.functions = full.layout.functions
  members : skeleton.layout.members.entries =
    full.layout.members.entries.filter fun m => m.2.origin ≠ .persistentFrame
  skeletonBytes : Fingerprint.skeletonBytes skeleton.layout = Fingerprint.skeletonBytes full.layout
  skeletonHash : skeleton.skeletonHash = full.skeletonHash

namespace Job

def face (j : Job) : FunctionFace :=
  ⟨j.work.function, j.work.role, j.signature, j.overrideOf, j.work.sourceGraph,
    Fingerprint.ofSignature j.signature⟩

theorem face_finish (options : CompileOptions) : CompiledFunction.face ∘ finish options = face := rfl

theorem Same.face {j j' : Job} (h : j.Same j') : j'.face = j.face := by
  rw [Job.face, Job.face, h.work.function, h.work.role, h.work.sourceGraph, h.signature, h.overrideOf]

end Job

namespace Compiler

variable {c : Compiler} {u : CompilationUnit} {cls : CompiledClass}

def inMode (c : Compiler) (mode : CompileMode) : Compiler := { c with options := { c.options with mode } }

theorem registered_inMode (hreg : c.registry = .standard) (mode : CompileMode) :
    (c.inMode mode).registered u = c.registered u := by
  have hregistry : (c.inMode mode).registry = .standard := hreg
  rw [registered, registered, hregistry, hreg]
  have hschema : ((c.inMode mode).env u).schema = (c.env u).schema := rfl
  exact List.map_congr_left fun j _ => Job.registerSignature_congr hschema u j

theorem layout_inMode (hreg : c.registry = .standard) (mode : CompileMode) :
    (c.inMode mode).layout u = c.layout u := by
  rw [layout, registered_inMode hreg]
  rfl

theorem members_layout (c : Compiler) (u : CompilationUnit) :
    (c.layout u).members = (ClassLayout.ofSchema u (c.env u).schema).members :=
  List.foldlRecOn (motive := fun l : ClassLayout => l.members =
    (ClassLayout.ofSchema u (c.env u).schema).members)
    _ _ rfl fun _ hl _ _ => hl

theorem faces_built (hreg : c.registry = .standard) :
    (c.built u).map Job.face = (c.registered u).map Job.face := by
  rw [built, precompiled, List.map_map, List.map_map, hreg]
  refine List.map_congr_left fun j _ => ?_
  exact (Job.compileBody_same _ _).face.trans (Job.precompile_same _ _ j).face

theorem presents_finished (hreg : c.registry = .standard) (options : CompileOptions) :
    CompiledClass.Presents (skeleton { c with options } u (c.layout u) (log u) (c.registered u))
      (c.finished u) := by
  have hmembers : (c.layout u).members.entries =
      ((c.layout u).addPromoted (c.promoted u)).members.entries.filter fun m =>
        ClassLayout.isVisible m.2 :=
    (ClassLayout.filter_addPromoted (members_layout c u ▸ ClassLayout.visible_ofSchema u _) _).symm
  have hvalues : ((c.layout u).members.values.filter fun m => m.origin ≠ .persistentFrame) =
      ((c.layout u).addPromoted (c.promoted u)).members.values.filter fun m => m.origin ≠
        .persistentFrame := by
    rw [OrderedMap.values, OrderedMap.values, hmembers, List.filter_map, List.filter_map,
      List.filter_filter]
    simp only [ClassLayout.isVisible, Function.comp_def, Bool.and_self]
  have hbytes : Fingerprint.skeletonBytes (c.layout u) =
      Fingerprint.skeletonBytes { (c.layout u).addPromoted (c.promoted u) with finalized := true } := by
    simp only [Fingerprint.skeletonBytes, hvalues]
    rfl
  refine ⟨?_, rfl, rfl, rfl, rfl, hmembers, hbytes, congrArg Digest.ofBytes hbytes⟩
  calc ((c.registered u).map (Job.finish options)).map CompiledFunction.face
      = (c.registered u).map Job.face := by rw [List.map_map, Job.face_finish]
    _ = (c.built u).map Job.face := (faces_built hreg).symm
    _ = (Job.patchAll (c.built u)).map Job.face := (Job.map_patchAll (fun _ _ => rfl) _).symm
    _ = ((Job.patchAll (c.built u)).map (Job.finish c.options)).map CompiledFunction.face := by
        rw [List.map_map, Job.face_finish]

/-- Compiled without bodies, a class is to other units what it is with bodies. There is nothing to compare
only if the unit is too large. -/
theorem compile_presents (hreg : c.registry = .standard) (hcheck : c.options.check = .ok ())
    (hcancel : c.cancelled = false) :
    ((c.inMode .full).compile u = .error (.crashed u.name) ∧ (c.inMode .full).Overloads u) ∨
      ∃ skeleton full, (c.inMode .skeleton).compile u = .ok skeleton ∧
        (c.inMode .full).compile u = .ok full ∧
        skeleton.Presents full := by
  have hskeleton := compile_skeleton (c := c.inMode .skeleton) (u := u) hcheck hcancel rfl
  have hcrash := compile_crashes_iff (c := c.inMode .full) (u := u) hreg hcheck hcancel
  have hfull := compile_full (c := c.inMode .full) (u := u) hreg hcheck hcancel rfl
  rw [registered_inMode hreg, layout_inMode hreg] at hskeleton
  rw [registered_inMode hreg] at hfull
  rw [hfull] at hcrash
  rw [hskeleton, hfull]
  cases hfailed : Job.anyFailed (c.registered u) || Job.anyFailed ((c.inMode .full).precompiled u) ||
      Job.anyFailed ((c.inMode .full).built u) with
  | true => exact Or.inl ⟨if_pos rfl, hcrash.mp (if_pos hfailed)⟩
  | false =>
      rw [Bool.or_eq_false_iff, Bool.or_eq_false_iff] at hfailed
      refine Or.inr ⟨_, _, if_neg (Bool.eq_false_iff.mp hfailed.1.1), if_neg Bool.false_ne_true, ?_⟩
      have hpresents := presents_finished (c := c.inMode .full) (u := u) hreg
        { c.options with mode := .skeleton }
      rw [registered_inMode hreg, layout_inMode hreg] at hpresents
      exact hpresents

def ringGraph : ScriptGraph where
  name := "ring"
  slots := [some (ScriptNode.entry "ring"), some { ScriptNode.result with order := 1 }]
  links := [⟨0, ⟨0, 0⟩, ⟨1, 0⟩, .control⟩]
  linkBound := 1
  nextOrder := 2

def bellPage : ScriptGraph where
  name := "Events"
  slots :=
    [some ((ScriptNode.event "Hit").addPorts [.dataOut "force" ⟨.int, .single⟩]),
      some { (ScriptNode.call "play").addPorts [.dataIn "volume" ⟨.int, .single⟩] with order := 1 }]
  links := [⟨1, ⟨0, 1⟩, ⟨1, 2⟩, .data⟩, ⟨0, ⟨0, 0⟩, ⟨1, 0⟩, .control⟩]
  linkBound := 2
  nextOrder := 2

def bellWith (ring : ScriptGraph) : CompilationUnit where
  name := "Bell"
  fields := [{ name := "tune", type := ⟨.string, .single⟩ }]
  functionGraphs := [ring]
  eventGraphs := [bellPage]

def bell : CompilationUnit := bellWith ringGraph

def bellEnv : Env where
  schema :=
    { name := "Bell"
      members := .ofList [("tune", ⟨"tune", ⟨.string, .single⟩, false, none⟩)]
      functions := .ofList [("ring", 0)]
      events := ["Hit"]
      eventGraphFunction := "ExecuteEventGraph_Bell" }

theorem schema_bellWith {g : ScriptGraph} (hname : g.functionName = "ring") :
    Schema.ofUnit (bellWith g) = (bellEnv.schema, []) := by
  have hgraph : Schema.eventGraphName "Bell" = "ExecuteEventGraph_Bell" := rfl
  have hevents : Schema.eventNames [bellPage] = ["Hit"] := by cbv
  simp only [Schema.ofUnit, bellWith, Schema.addFunctions, hname, hgraph, hevents]
  rfl

theorem env_bellWith {g : ScriptGraph} (hname : g.functionName = "ring") : env {} (bellWith g) = bellEnv :=
  env_of_schema (schema_bellWith hname)

theorem env_bell : env {} bell = bellEnv := env_bellWith (by cbv)

theorem compile_bell : ∃ cls, compile {} bell = .ok cls ∧ cls.isSuccess = true :=
  success_of_schema (schema_bellWith (by cbv)) (by cbv)

theorem members_bell (hcls : compile {} bell = .ok cls) : cls.layout.members.entries =
    [("tune", ⟨"tune", ⟨.string, .single⟩, .field, none⟩),
      ("Hit_force", ⟨"Hit_force", ⟨.int, .single⟩, .persistentFrame, none⟩)] := by
  have hpromoted : promoted {} bell = [⟨"Hit_force", ⟨.int, .single⟩, none⟩] := by
    rw [promoted, precompiled, registered, env_bell]
    cbv
  have hlayout : cls.layout.members = ((layout {} bell).addPromoted (promoted {} bell)).members := by
    rw [eq_finished rfl hcls]
    rfl
  rw [hlayout, hpromoted, ClassLayout.addPromoted, members_layout, env_bell]
  rfl

theorem bell_presents :
    ∃ skeleton full, compile { options := .skeleton } bell = .ok skeleton ∧ compile {} bell = .ok full ∧
    skeleton.Presents full ∧ skeleton.layout.members.keys = ["tune"] ∧
      full.layout.members.keys = ["tune", "Hit_force"] := by
  obtain ⟨cls, hcls, _⟩ := compile_bell
  rcases compile_presents (c := {}) (u := bell) rfl rfl rfl with
    ⟨hcrash, -⟩ | ⟨skeleton, full, hskeleton, hfull, hpresents⟩
  · cases hcls.symm.trans hcrash
  · have hmembers := members_bell hfull
    refine ⟨skeleton, full, hskeleton, hfull, hpresents, ?_, ?_⟩
    · rw [OrderedMap.keys, hpresents.members, hmembers]
      rfl
    · rw [OrderedMap.keys, hmembers]
      rfl

end Compiler

end VisualScript
