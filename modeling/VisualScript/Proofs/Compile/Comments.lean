import VisualScript.Proofs.Compile.Abandonment
import VisualScript.Proofs.Compile.Naming
import VisualScript.Proofs.Working.Comments

namespace VisualScript

theorem Expansion.round_withComments (env : Env) (on : Bool) (macros : MacroLibrary) :
    round (env.withComments on) macros = round env macros := rfl

theorem Expansion.rounds_withComments (env : Env) (on : Bool) (macros : MacroLibrary) (fuel : Nat)
    (x : Expansion) :
    rounds (env.withComments on) macros fuel x = rounds env macros fuel x := by
  induction fuel generalizing x with
  | zero => rfl
  | succ fuel ih => simp only [rounds, round_withComments, ih]

theorem Registry.policy_withComments (o : CompileOptions) (on : Bool) :
    standard.policy (o.withComments on) = standard.policy o := by
  have hkeeps : standard.keeps (o.withComments on) = standard.keeps o := by
    funext n
    rw [keeps, keeps, Handler.handler?_standard]
    cases n.kind <;> rfl
  rw [policy, hkeeps, policy]

theorem Working.precompile_withComments (env : Env) (on : Bool) (macros : MacroLibrary) (w : Working) :
    w.precompile .standard (env.withComments on) macros = w.precompile .standard env macros := by
  have hexpand (w : Working) : w.expand (env.withComments on) macros = w.expand env macros :=
    Expansion.rounds_withComments env on macros _ _
  have hpolicy : Registry.standard.policy (env.withComments on).options =
    Registry.standard.policy env.options :=
    Registry.policy_withComments env.options on
  have hprune (w : Working) : w.prune .standard (env.withComments on)
      (w.roots .standard (env.withComments on)) =
      w.prune .standard env (w.roots .standard env) := by
    rw [roots, prune, hpolicy, roots, prune]
    rfl
  have hschema : (env.withComments on).schema = env.schema := rfl
  have hregister : registerTerms .standard (env.withComments on) false =
    registerTerms .standard env false :=
    funext (registerTerms_congr hschema false)
  simp only [precompile, hexpand, hprune, hregister]

theorem Build.body_withoutComments (env : Env) (w : Working) :
    (body .standard (env.withComments false) w).2 = (body .standard (env.withComments true) w).2 ∧
      (body .standard (env.withComments false) w).1.isNone =
        (body .standard (env.withComments true) w).1.isNone := by
  cases hs : w.schedule .standard with
  | error e =>
      rw [body, bind_apply, body, bind_apply]
      simp only [get_apply, hs]
      exact ⟨trivial, trivial⟩
  | ok s =>
      rw [body_eq hs, body_eq hs, blocks_withoutComments]
      dsimp only
      by_cases herrors : (blocks .standard (env.withComments true) s w).2.hasErrors = true
      · simp only [if_pos herrors, and_self]
      · simp only [if_neg herrors, Option.isNone_some, and_self]

namespace Job

variable {env : Env} {j : Job}

theorem precompile_withComments (env : Env) (on : Bool) (macros : MacroLibrary) (j : Job) :
    j.precompile .standard (env.withComments on) macros = j.precompile .standard env macros := by
  rw [precompile, Working.precompile_withComments, precompile]

theorem compileBody_withoutComments (env : Env) (j : Job) :
    j.compileBody .standard (env.withComments false) =
    { j.compileBody .standard (env.withComments true) with body := (j.compileBody .standard
      (env.withComments false)).body } := by
  cases h : j.abandoned with
  | true =>
      rw [compileBody, compileBody, h]
      rfl
  | false =>
      obtain ⟨hwork, hnone⟩ := Build.body_withoutComments env j.work
      rw [compileBody_eq _ _ h, compileBody_eq _ _ h]
      simp only [hwork, hnone]
      rfl

theorem congr_withoutComments {β : Type} {p : Job → β}
    (hp : ∀ (j : Job) body, p { j with body } = p j) (env : Env) (j : Job) :
    p (j.compileBody .standard (env.withComments false)) =
      p (j.compileBody .standard (env.withComments true)) := by
  rw [compileBody_withoutComments]
  exact hp _ _

theorem work_withoutComments (env : Env) (j : Job) :
    (j.compileBody .standard (env.withComments false)).work =
    (j.compileBody .standard (env.withComments true)).work :=
  congr_withoutComments (p := Job.work) (fun _ _ => rfl) env j

theorem abandoned_withoutComments (env : Env) (j : Job) :
    (j.compileBody .standard (env.withComments false)).abandoned =
    (j.compileBody .standard (env.withComments true)).abandoned :=
  congr_withoutComments (p := Job.abandoned) (fun _ _ => rfl) env j

def plainBlocks (env : Env) (j : Job) (s : Schedule) : List Block :=
  (Build.blocks .standard (env.withComments false) s j.work).1

/-- Where a block of the function ends with a jump to the next one, its own node jumps. -/
def JumpsOn (env : Env) (j : Job) : Prop :=
  (j.compileBody .standard (env.withComments false)).abandoned = false →
    ∀ s, j.work.schedule .standard = .ok s → (j.plainBlocks env s).IsChain Block.JumpsOn

def Quiet (j : Job) : Prop :=
  ∀ id n, j.work.graph.node? id = some n → Registry.standard.isPure n = true → n.isQuiet = true

theorem Quiet.jumpsOn (h : j.Quiet) (env : Env) : j.JumpsOn env := by
  refine fun _ s hs => Build.isChain_jumpsOn_of_quiet hs _ fun id _ k hk n hn => ?_
  obtain ⟨m, hm, hpure⟩ := Graph.mem_prelude hs hk
  cases hn.symm.trans hm
  exact h k n hn hpure

theorem jumpsOn_of_debug (h : env.options.debugInstrumentation = true) (j : Job) : j.JumpsOn env :=
  fun _ _ hs => Build.isChain_jumpsOn_of_debug hs h

/-- The body with comments and the one without, where there are any. -/
structure Commented (env : Env) (j : Job) (b plain : Body) : Prop where
  withComments : (j.compileBody .standard (env.withComments true)).body = some b
  withoutComments : (j.compileBody .standard (env.withComments false)).body = some plain
  same : j.JumpsOn env → ∀ entry, b.withoutComments entry = plain
  jumpsOn : ∀ entry, (b.withoutComments entry).statements.length = plain.statements.length → j.JumpsOn env

theorem exists_commented (h : (j.compileBody .standard (env.withComments false)).abandoned = false) :
    ∃ b plain, j.Commented env b plain := by
  have hlive := (abandoned_withoutComments env j).symm.trans h
  obtain ⟨_, s, hs, hbody⟩ := compileBody_linked hlive
  obtain ⟨_, s', hs', hbody'⟩ := compileBody_linked h
  cases hs.symm.trans hs'
  have hunlinked := Build.blocks_unlinked env s j.work
  have hchain : j.JumpsOn env ↔
      (Build.blocks .standard (env.withComments true) s j.work).1.IsChain Block.Reveals := by
    rw [Build.isChain_reveals_iff hs]
    refine ⟨fun hj => hj h s hs, fun hj _ s' hs' => ?_⟩
    cases hs.symm.trans hs'
    exact hj
  simp only [Build.blocks_withoutComments] at hbody'
  refine ⟨_, _, hbody, hbody', fun hj entry => ?_, fun entry hlength => ?_⟩
  · exact Body.withoutComments_link hunlinked _ entry (hchain.mp hj)
  · exact hchain.mpr (Body.isChain_of_length_link hunlinked _ entry hlength)

def isEventGraph (j : Job) : Bool := j.work.role = .eventGraph && !j.abandoned

/-- What the offset of an entry into the event graph is once the comments there are gone. -/
def entryOffset (jobs : List Job) (n : Nat) : Nat :=
  match jobs.find? isEventGraph with
  | some j => (j.finalBody .full).offsetWithoutComments n
  | none => n

def eventStarts (g : ScriptGraph) (b : Body) : List (String × Nat) :=
  g.events.filterMap fun e => (b.blockStart? e.1).map fun offset => (e.2.name, offset)

theorem eventOffsets_eq (jobs : List Job) :
    eventOffsets jobs = (jobs.find? isEventGraph).bind fun j => j.body.map (eventStarts j.work.graph) := by
  have hfind : (jobs.find? fun j => j.work.role = .eventGraph && !j.abandoned) =
      jobs.find? isEventGraph := rfl
  rw [eventOffsets, hfind]
  cases jobs.find? isEventGraph <;> rfl

theorem eventStarts_withoutComments (g : ScriptGraph) (b : Body) (entry : Nat → Nat) :
    eventStarts g (b.withoutComments entry) =
      (eventStarts g b).map fun p => (p.1, b.offsetWithoutComments p.2) := by
  have hstart (id : NodeId) : (b.withoutComments entry).blockStart? id =
    (b.blockStart? id).map b.offsetWithoutComments :=
    OrderedMap.get?_mapValues _ _ _
  simp only [eventStarts, List.map_filterMap, hstart, Option.map_map]
  rfl

/-- A function once the offsets of events are known. -/
def patchedIn (jobs : List Job) (j : Job) : Job :=
  { j with body := j.body.map fun b => { b with statements := b.statements.map (patched jobs
    j.work.role) } }

theorem patchAll_eq_map (jobs : List Job) : patchAll jobs = jobs.map (patchedIn jobs) := by
  apply List.ext_getElem?
  intro i
  rw [patchAll_getElem?, List.getElem?_map]
  rfl

theorem isComment_patched (jobs : List Job) (role : FunctionRole) (s : Statement) :
    (patched jobs role s).isComment = s.isComment := by
  unfold patched
  split
  · cases s <;> rfl
  · rfl

theorem lookup_map_snd {α β γ : Type} [BEq α] (f : β → γ) (l : List (α × β)) (a : α) :
    (l.map fun p => (p.1, f p.2)).lookup a = (l.lookup a).map f := by
  induction l with
  | nil => rfl
  | cons p rest ih =>
      rw [List.map_cons, List.lookup_cons, List.lookup_cons]
      cases a == p.1
      · exact ih
      · rfl

theorem renumber_patched {jobs jobs' : List Job} {entry : Nat → Nat}
    (h : eventOffsets jobs' = (eventOffsets jobs).map (List.map fun p => (p.1, entry p.2)))
    (role : FunctionRole) (own : Nat → Nat) (s : Statement) :
    (patched jobs role s).renumber own entry = patched jobs' role (s.renumber own entry) := by
  unfold patched
  rw [h]
  cases role with
  | function | eventGraph => rfl
  | eventStub =>
      cases eventOffsets jobs with
      | none => rfl
      | some offsets =>
          cases s with
          | callEventGraph function event offset =>
              simp only [Option.map_some, patchStatement, Statement.renumber, lookup_map_snd]
          | _ => rfl

def builtWith (env : Env) (on : Bool) (jobs : List Job) : List Job :=
  jobs.map (compileBody .standard (env.withComments on))

variable {jobs : List Job}

theorem eventOffsets_withoutComments (h : ∀ j ∈ jobs, j.JumpsOn env) :
    eventOffsets (builtWith env false jobs) =
    (eventOffsets (builtWith env true jobs)).map
      (List.map fun p => (p.1, entryOffset (builtWith env true jobs) p.2)) := by
  have hevent : (isEventGraph ∘ compileBody .standard (env.withComments false)) =
      isEventGraph ∘ compileBody .standard (env.withComments true) :=
    funext (congr_withoutComments (p := isEventGraph) (fun _ _ => rfl) env)
  have hoff : (builtWith env false jobs).find? isEventGraph = _ := List.find?_map
  have hon : (builtWith env true jobs).find? isEventGraph = _ := List.find?_map
  rw [hevent] at hoff
  rw [eventOffsets_eq, eventOffsets_eq, hoff]
  unfold entryOffset
  rw [hon]
  cases hfind : jobs.find? (isEventGraph ∘ compileBody .standard (env.withComments true)) with
  | none => rfl
  | some j =>
      have hlive : (j.compileBody .standard (env.withComments true)).abandoned = false := by
        have hj := List.find?_some hfind
        rw [Function.comp_apply, isEventGraph, Bool.and_eq_true] at hj
        simpa using hj.2
      obtain ⟨b, plain, hb⟩ := exists_commented ((abandoned_withoutComments env j).trans hlive)
      have hsame := hb.same (h j (List.mem_of_find?_eq_some hfind)) id
      have hfinal : (j.compileBody .standard (env.withComments true)).finalBody .full = b := by
        rw [finalBody_full, hb.withComments, hlive]
        rfl
      simp only [Option.map_some, Option.bind_some, hb.withComments, hb.withoutComments,
        work_withoutComments, ← hsame,
        eventStarts_withoutComments, hfinal]

def fullBody (jobs : List Job) (j : Job) : Body := (patchedIn jobs j).finalBody .full

theorem fullBody_of_abandoned (jobs : List Job) {j : Job} (h : j.abandoned = true) :
    fullBody jobs j = .stub := by
  rw [fullBody, finalBody_full]
  exact if_pos h

theorem fullBody_of_body (jobs : List Job) {j : Job} (h : j.abandoned = false) {b : Body}
    (hb : j.body = some b) :
    fullBody jobs j = { b with statements := b.statements.map (patched jobs j.work.role) } := by
  rw [fullBody, finalBody_full, patchedIn, hb]
  exact if_neg (Bool.eq_false_iff.mp h)

theorem stub_withoutComments (entry : Nat → Nat) : Body.stub.withoutComments entry = .stub := rfl

theorem fullBody_withoutComments (h : ∀ j ∈ jobs, j.JumpsOn env) (hj : j ∈ jobs) :
    (fullBody (builtWith env true jobs) (j.compileBody .standard (env.withComments true))).withoutComments
        (entryOffset (builtWith env true jobs)) =
      fullBody (builtWith env false jobs) (j.compileBody .standard (env.withComments false)) := by
  cases hlive : (j.compileBody .standard (env.withComments true)).abandoned with
  | true =>
      rw [fullBody_of_abandoned _ hlive,
        fullBody_of_abandoned _ ((abandoned_withoutComments env j).trans hlive),
        stub_withoutComments]
  | false =>
      have hlive' := (abandoned_withoutComments env j).trans hlive
      obtain ⟨b, plain, hb⟩ := exists_commented hlive'
      have hoffsets := eventOffsets_withoutComments h
      rw [fullBody_of_body _ hlive hb.withComments, fullBody_of_body _ hlive' hb.withoutComments,
        work_withoutComments,
        Body.withoutComments_map b (isComment_patched _ _) (renumber_patched hoffsets _), hb.same (h j hj)]

theorem jumpsOn_of_fullBody {entry : Nat → Nat}
    (h : (fullBody (builtWith env true jobs)
      (j.compileBody .standard (env.withComments true))).withoutComments entry =
        fullBody (builtWith env false jobs) (j.compileBody .standard (env.withComments false))) :
    j.JumpsOn env := by
  intro hlive'
  obtain ⟨b, plain, hb⟩ := exists_commented hlive'
  have hlive := (abandoned_withoutComments env j).symm.trans hlive'
  rw [fullBody_of_body _ hlive hb.withComments, fullBody_of_body _ hlive' hb.withoutComments] at h
  have hlength := congrArg (fun body => body.statements.length) h
  simp only [Body.length_withoutComments_map b entry (isComment_patched _ _), List.length_map] at hlength
  exact hb.jumpsOn entry hlength hlive'

end Job

def CompiledFunction.withoutBody (f : CompiledFunction) : CompiledFunction :=
  { f with body := {}, fingerprint := "" }

namespace CompiledClass

/-- What the offset of an entry into the event graph is once the comments there are gone. -/
def entryOffset (c : CompiledClass) (n : Nat) : Nat :=
  match c.functions.find? fun f => f.role = .eventGraph && !f.abandoned with
  | some f => f.body.offsetWithoutComments n
  | none => n

def bodies (c : CompiledClass) : List Body := c.functions.map CompiledFunction.body

def bodiesWithoutComments (c : CompiledClass) : List Body :=
  c.bodies.map fun b => b.withoutComments c.entryOffset

def withoutBodies (c : CompiledClass) : CompiledClass :=
  { c with functions := c.functions.map CompiledFunction.withoutBody }

end CompiledClass

namespace Compiler

variable {c : Compiler} {u : CompilationUnit}

def withComments (c : Compiler) (on : Bool) : Compiler := { c with options := c.options.withComments on }

section Standard

variable (hreg : c.registry = .standard) (on : Bool)

include hreg

theorem registered_withComments : (c.withComments on).registered u = c.registered u := by
  have hschema : ((c.withComments on).env u).schema = (c.env u).schema := rfl
  have hreg' : (c.withComments on).registry = .standard := hreg
  rw [registered, registered, hreg, hreg']
  exact List.map_congr_left fun j _ => Job.registerSignature_congr hschema u j

theorem precompiled_withComments : (c.withComments on).precompiled u = c.precompiled u := by
  have hreg' : (c.withComments on).registry = .standard := hreg
  rw [precompiled, precompiled, registered_withComments hreg, hreg, hreg']
  exact List.map_congr_left fun j _ => Job.precompile_withComments (c.env u) on u.macros j

theorem built_withComments :
    (c.withComments on).built u = Job.builtWith (c.env u) on (c.precompiled u) := by
  have hreg' : (c.withComments on).registry = .standard := hreg
  rw [built, precompiled_withComments hreg, hreg']
  rfl

theorem layout_withComments : (c.withComments on).layout u = c.layout u := by
  rw [layout, registered_withComments hreg]
  rfl

theorem promoted_withComments : (c.withComments on).promoted u = c.promoted u := by
  rw [promoted, precompiled_withComments hreg]
  rfl

end Standard

theorem functions_finished (c : Compiler) (u : CompilationUnit) :
    (c.finished u).functions = ((c.built u).map (Job.patchedIn (c.built u))).map
      (Job.finish c.options) := by
  rw [← Job.patchAll_eq_map]
  rfl

theorem entryOffset_finished (hmode : c.options.mode = .full) :
    (c.finished u).entryOffset = Job.entryOffset (c.built u) := by
  have hevent : (fun f : CompiledFunction => decide (f.role = .eventGraph) && !f.abandoned) ∘
      (Job.finish c.options ∘ Job.patchedIn (c.built u)) = Job.isEventGraph := rfl
  have hoffset (j : Job) : ((j.patchedIn (c.built u)).finalBody .full).offsetWithoutComments =
      (j.finalBody .full).offsetWithoutComments := by
    rw [Job.finalBody_full, Job.finalBody_full, Job.patchedIn]
    cases j.abandoned <;> cases j.body
    case false.some b => exact b.offsetWithoutComments_map (Job.isComment_patched _ _)
    all_goals rfl
  funext n
  rw [CompiledClass.entryOffset, functions_finished, List.map_map, List.find?_map, hevent, Job.entryOffset]
  cases (c.built u).find? Job.isEventGraph with
  | none => rfl
  | some j =>
      simp only [Option.map_some, Function.comp_apply, Job.finish, hmode, hoffset]

section

variable (hreg : c.registry = .standard)
include hreg

theorem withoutBodies_finished :
    ((c.withComments true).finished u).withoutBodies =
      ((c.withComments false).finished u).withoutBodies := by
  -- All that a function and the log take from a job is not its body.
  have hmap {β : Type} (p : Job → β) (hp : ∀ (j : Job) body, p { j with body } = p j) :
      (Job.patchAll ((c.withComments true).built u)).map p =
        (Job.patchAll ((c.withComments false).built u)).map p := by
    rw [Job.map_patchAll hp, Job.map_patchAll hp, built_withComments hreg, built_withComments hreg,
      Job.builtWith,
      Job.builtWith, List.map_map, List.map_map]
    exact List.map_congr_left fun j _ => (Job.congr_withoutComments hp (c.env u) j).symm
  have hfinish (on : Bool) : CompiledFunction.withoutBody ∘ Job.finish (c.withComments on).options =
      CompiledFunction.withoutBody ∘ Job.finish c.options := rfl
  have hfunctions := hmap (CompiledFunction.withoutBody ∘ Job.finish c.options) fun _ _ => rfl
  have hdiagnostics := hmap (fun j => j.work.diagnostics) fun _ _ => rfl
  rw [finished, finished, layout_withComments hreg, layout_withComments hreg, promoted_withComments hreg,
    promoted_withComments hreg]
  simp only [finalize, skeleton, CompiledClass.withoutBodies, List.map_map, List.flatMap_def,
    hfinish, hfunctions, hdiagnostics]
  rfl

theorem bodies_finished (hmode : c.options.mode = .full) (on : Bool) :
    ((c.withComments on).finished u).bodies = (c.precompiled u).map fun j =>
      Job.fullBody (Job.builtWith (c.env u) on (c.precompiled u))
        (j.compileBody .standard ((c.env u).withComments on)) := by
  have hbody : CompiledFunction.body ∘ Job.finish (c.withComments on).options =
    fun j => j.finalBody .full :=
    funext fun j => congrArg j.finalBody hmode
  rw [CompiledClass.bodies, functions_finished, built_withComments hreg, List.map_map, hbody,
    Job.builtWith, List.map_map,
    List.map_map]
  rfl

theorem bodies_finished_iff (hmode : c.options.mode = .full) :
    ((c.withComments true).finished u).bodiesWithoutComments = ((c.withComments false).finished u).bodies ↔
      ∀ j ∈ c.precompiled u, j.JumpsOn (c.env u) := by
  have hentry : ((c.withComments true).finished u).entryOffset = _ := entryOffset_finished hmode
  rw [built_withComments hreg] at hentry
  rw [CompiledClass.bodiesWithoutComments, hentry, bodies_finished hreg hmode,
    bodies_finished hreg hmode, List.map_map,
    List.map_inj_left]
  exact ⟨fun h j hj => Job.jumpsOn_of_fullBody (h j hj), fun h j hj => Job.fullBody_withoutComments h hj⟩

theorem anyFailed_built :
    Job.anyFailed ((c.withComments true).built u) = Job.anyFailed ((c.withComments false).built u) := by
  have hwork (j : Job) := congrArg Working.failed (Job.work_withoutComments (c.env u) j).symm
  simp only [Job.anyFailed, built_withComments hreg, Job.builtWith, List.any_map, Function.comp_def, hwork]

theorem compile_full_withComments (hcheck : c.options.check = .ok ())
    (hcancel : c.cancelled = false) (hmode : c.options.mode = .full) (on : Bool) :
    (c.withComments on).compile u =
      if Job.anyFailed (c.registered u) || Job.anyFailed (c.precompiled u) ||
          Job.anyFailed ((c.withComments false).built u) then .error (.crashed u.name)
      else .ok ((c.withComments on).finished u) := by
  have hrun : (c.withComments on).compile u = _ := compile_full hreg hcheck hcancel hmode
  have hbuilt : Job.anyFailed ((c.withComments on).built u) =
      Job.anyFailed ((c.withComments false).built u) := by
    cases on with
    | false => rfl
    | true => exact anyFailed_built hreg
  rw [hrun, registered_withComments hreg, precompiled_withComments hreg, hbuilt]

theorem exists_function_withComments (hcheck : c.options.check = .ok ())
    (hcancel : c.cancelled = false) (hmode : c.options.mode = .full) {plain : CompiledClass}
    (h : (c.withComments false).compile u = .ok plain) {i : Nat} {f : CompiledFunction}
    (hf : plain.functions[i]? = some f) :
    ∃ commented f', (c.withComments true).compile u = .ok commented ∧ commented.functions[i]? = some f' ∧
      f'.withoutBody = f.withoutBody := by
  rw [compile_full_withComments hreg hcheck hcancel hmode] at h ⊢
  split at h
  · cases h
  · next hfailed =>
      cases h
      have hheads := congrArg (fun cls => cls.functions[i]?) (withoutBodies_finished (u := u) hreg)
      simp only [CompiledClass.withoutBodies, List.getElem?_map, hf, Option.map_some] at hheads
      obtain ⟨f', hf', he⟩ := Option.map_eq_some_iff.mp hheads
      exact ⟨_, f', if_neg hfailed, hf', he⟩

theorem skeleton_withComments (on : Bool) :
    (c.withComments on).skeleton u ((c.withComments on).layout u) (log u)
      ((c.withComments on).registered u) =
      c.skeleton u (c.layout u) (log u) (c.registered u) := by
  rw [layout_withComments hreg, registered_withComments hreg]
  rfl

end

theorem bodies_skeleton (hmode : c.options.mode = .skeleton) (layout : ClassLayout)
    (log : MessageLog) (jobs : List Job) :
    (c.skeleton u layout log jobs).bodiesWithoutComments = (c.skeleton u layout log jobs).bodies := by
  have hbody : CompiledFunction.body ∘ Job.finish c.options = fun _ => {} :=
    funext fun j => by rw [Function.comp_apply, Job.finish, hmode, Job.finalBody]
  have hbodies : (c.skeleton u layout log jobs).bodies = jobs.map fun _ => {} := by
    rw [CompiledClass.bodies, skeleton, List.map_map, hbody]
  rw [CompiledClass.bodiesWithoutComments, hbodies, List.map_map]
  rfl

/-- Comments do not change what is compiled. The two classes agree on all but the code. If the
comments are deleted from it, there is left what is compiled without them, just if each jump to the
next block comes from the node of its block. So it is with debug sites, and where no pure node
jumps. -/
theorem compile_withComments_iff (hreg : c.registry = .standard) (hcheck : c.options.check = .ok ())
    (hcancel : c.cancelled = false) (u : CompilationUnit) :
    ((c.withComments true).compile u = .error (.crashed u.name) ∧
      (c.withComments false).compile u = .error (.crashed u.name)) ∨
    ∃ commented plain, (c.withComments true).compile u = .ok commented ∧
      (c.withComments false).compile u = .ok plain ∧
      commented.withoutBodies = plain.withoutBodies ∧
      (commented.bodiesWithoutComments = plain.bodies ↔
        (c.options.mode = .full → ∀ j ∈ c.precompiled u, j.JumpsOn (c.env u))) ∧
      (c.options.debugInstrumentation = true ∨ (∀ j ∈ c.precompiled u, j.Quiet) →
        commented.bodiesWithoutComments = plain.bodies) := by
  have hjumps (h : c.options.debugInstrumentation = true ∨ ∀ j ∈ c.precompiled u, j.Quiet) :
      ∀ j ∈ c.precompiled u, j.JumpsOn (c.env u) := by
    intro j hj
    rcases h with hdebug | hquiet
    · exact Job.jumpsOn_of_debug hdebug j
    · exact (hquiet j hj).jumpsOn (c.env u)
  cases hmode : c.options.mode with
  | skeleton =>
      have hrun (on : Bool) : (c.withComments on).compile u = _ := compile_skeleton hcheck hcancel hmode
      rw [hrun, hrun, skeleton_withComments hreg, skeleton_withComments hreg, registered_withComments hreg,
        registered_withComments hreg]
      split
      · exact Or.inl ⟨rfl, rfl⟩
      · have hbodies := bodies_skeleton (u := u) hmode (c.layout u) (log u) (c.registered u)
        exact Or.inr ⟨_, _, rfl, rfl, rfl,
          iff_of_true hbodies fun hfull => absurd hfull (by decide), fun _ => hbodies⟩
  | full =>
      rw [compile_full_withComments hreg hcheck hcancel hmode,
        compile_full_withComments hreg hcheck hcancel hmode]
      split
      · exact Or.inl ⟨rfl, rfl⟩
      · refine Or.inr ⟨_, _, rfl, rfl, withoutBodies_finished hreg, ?_, fun h => ?_⟩
        · rw [bodies_finished_iff hreg hmode]
          exact ⟨fun h _ => h, fun h => h rfl⟩
        · exact (bodies_finished_iff hreg hmode).mpr (hjumps h)

theorem quiet_belfry : ∀ j ∈ precompiled {} belfry, j.Quiet := by
  have hnodes : (Job.ofUnit belfry bellEnv.schema).all
      (fun j => (j.prepared bellEnv belfry).work.graph.stored.all fun x =>
      !Registry.standard.isPure x.2 || x.2.isQuiet) = true := by cbv
  simp only [List.all_eq_true, Bool.or_eq_true, Bool.not_eq_true'] at hnodes
  rw [precompiled_eq rfl, env_belfry]
  intro j hj id n hn hpure
  obtain ⟨j₀, hj₀, rfl⟩ := List.mem_map.mp hj
  have hquiet := hnodes j₀ hj₀ (id, n) (Graph.mem_stored.mpr hn)
  rw [hpure] at hquiet
  exact hquiet.resolve_left Bool.noConfusion

theorem belfry_withComments : ∃ commented plain, (withComments {} true).compile belfry = .ok commented ∧
    compile {} belfry = .ok plain ∧ plain.isSuccess = true ∧
      commented.withoutBodies = plain.withoutBodies ∧
    commented.bodiesWithoutComments = plain.bodies := by
  obtain ⟨cls, hcls, hsuccess⟩ := compile_belfry
  rcases compile_withComments_iff (c := {}) rfl rfl rfl belfry with
    ⟨_, herror⟩ | ⟨commented, plain, hcommented, hplain, hheads, _, hbodies⟩
  · cases herror.symm.trans hcls
  · cases hcls.symm.trans hplain
    exact ⟨commented, cls, hcommented, hplain, hsuccess, hheads, hbodies (Or.inr quiet_belfry)⟩

/-- A literal on the way to a call. What it reads comes from a call that counts as pure and goes on
to the same call. -/
def peekGraph : ScriptGraph where
  name := "open"
  slots :=
    [some (ScriptNode.entry "open"),
      some { kind := .literal, title := "mark", order := 1,
             ports := [.execIn "exec", .execOut "then", .dataIn "value" ⟨.int, .single⟩] },
      some { (ScriptNode.pureCall "look").addPorts [.execOut "then",
        .dataOut "seen" ⟨.int, .single⟩] with order := 2 },
      some { ScriptNode.call "push" with order := 3 }]
  links :=
    [⟨3, ⟨2, 0⟩, ⟨3, 0⟩, .control⟩, ⟨2, ⟨2, 1⟩, ⟨1, 2⟩, .data⟩, ⟨1, ⟨1, 1⟩, ⟨3, 0⟩, .control⟩,
      ⟨0, ⟨0, 0⟩, ⟨1, 0⟩, .control⟩]
  linkBound := 4
  nextOrder := 4

theorem passes_peek : (openingJob peekGraph).passes doorEnv (opening peekGraph) = true := by cbv

/-- The jump of the pure call leads to the next block, but the comment of the literal is between. -/
theorem peek_withComments :
    ∃ commented plain f f', (withComments {} true).compile (opening peekGraph) = .ok commented ∧
    compile {} (opening peekGraph) = .ok plain ∧ plain.isSuccess = true ∧
    commented.functions[0]? = some f ∧ plain.functions[0]? = some f' ∧
    f.body.statements = [.comment "open", .comment "look", .callFunction "look" [] [0],
      .goto (.offset 5), .comment "mark",
      .comment "push", .callFunction "push" [] [], .endOfThread] ∧
    f'.body.statements = [.callFunction "look" [] [0], .callFunction "push" [] [], .endOfThread] ∧
    commented.bodiesWithoutComments ≠ plain.bodies := by
  obtain ⟨plain, f', hplain, hsuccess, hj, hf', hlive'⟩ := compile_opening (by cbv) passes_peek
  have hschedule : (preparedJob peekGraph).work.schedule .standard =
      .ok ⟨[0, 1, 3], [(0, []), (1, [2]), (3, [])]⟩ := by cbv
  have hblocks : (Build.blocks .standard doorEnv ⟨[0, 1, 3], [(0, []), (1, [2]), (3, [])]⟩
      (preparedJob peekGraph).work).1 =
        [⟨0, [(0, .goto (.node 1))]⟩, ⟨1, [(2, .callFunction "look" [] [0]), (2, .goto (.node 3))]⟩,
          ⟨3, [(3, .callFunction "push" [] []), (3, .endOfThread)]⟩] := by cbv
  have hblocks' : (Build.blocks .standard (doorEnv.withComments true)
      ⟨[0, 1, 3], [(0, []), (1, [2]), (3, [])]⟩
      (preparedJob peekGraph).work).1 =
        [⟨0, [(0, .comment "open"), (0, .goto (.node 1))]⟩,
          ⟨1, [(2, .comment "look"), (2, .callFunction "look" [] [0]), (2, .goto (.node 3)),
            (1, .comment "mark")]⟩,
          ⟨3, [(3, .comment "push"), (3, .callFunction "push" [] []), (3, .endOfThread)]⟩] := by cbv
  obtain ⟨commented, f, hcommented, hf, hhead⟩ :=
    exists_function_withComments (c := {}) rfl rfl rfl rfl hplain hf'
  have hlive : f.abandoned = false := (congrArg CompiledFunction.abandoned hhead).trans hlive'
  have henv : env {} (opening peekGraph) = doorEnv := env_opening (by cbv)
  have henv' : env (withComments {} true) (opening peekGraph) = doorEnv.withComments true :=
    congrArg (fun e => e.withComments true) henv
  have hj' : ((withComments {} true).precompiled (opening peekGraph))[0]? =
      some (preparedJob peekGraph) := by
    rw [precompiled_withComments rfl]
    exact hj
  obtain ⟨originOf, hbody⟩ := body_of_compile rfl rfl hplain hj hf' hlive' henv hschedule hblocks
  obtain ⟨originOf', hbody'⟩ := body_of_compile rfl rfl hcommented hj' hf hlive henv' hschedule hblocks'
  have hrole : (preparedJob peekGraph).work.role = .function := by cbv
  have hpatched (jobs : List Job) : Job.patched jobs .function = id := rfl
  rw [hrole, hpatched] at hbody hbody'
  have hcode : f'.body.statements =
      [.callFunction "look" [] [0], .callFunction "push" [] [], .endOfThread] := by
    rw [hbody]
    rfl
  have hcode' : f.body.statements =
      [.comment "open", .comment "look", .callFunction "look" [] [0], .goto (.offset 5),
      .comment "mark", .comment "push", .callFunction "push" [] [], .endOfThread] := by
    rw [hbody']
    rfl
  refine ⟨commented, plain, f, f', hcommented, hplain, hsuccess, hf, hf', hcode', hcode, fun he => ?_⟩
  have hfirst := congrArg (fun bodies => bodies[0]?.map fun b => b.statements.length) he
  simp only [CompiledClass.bodiesWithoutComments, CompiledClass.bodies, List.getElem?_map, hf, hf',
    Option.map_some,
    Body.withoutComments, List.length_map, hcode, hcode'] at hfirst
  exact absurd hfirst (by decide)

end Compiler

end VisualScript
