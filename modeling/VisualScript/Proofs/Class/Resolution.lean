import VisualScript.Proofs.Class.Collisions
import VisualScript.Script.Shape

namespace VisualScript.Schema

variable {s : Schema} {taken : List String} {pairs : List (MemberDecl × String)} {u : CompilationUnit}
variable {name : String} {d : MemberDecl}

/-- Declarations, each with the name under which it was entered. -/
structure Entered (taken : List String) (pairs : List (MemberDecl × String)) (s : Schema) : Prop where
  entries : s.members.entries = pairs.map fun p => (p.2, { p.1 with name := p.2 })
  renamed : ∀ {a b : String}, s.renamed.get? a = some b ↔ a ∈ taken ∧ ∃ d, (d, b) ∈ pairs ∧ d.name = a
  free : ∀ p ∈ pairs, p.2 ∉ taken
  moved : ∀ {i : Nat} {p : MemberDecl × String}, pairs[i]? = some p →
    p.2 = p.1.name ∨ p.1.name ∈ taken ∨ p.1.name ∈ (pairs.take i).map Prod.snd

theorem Entered.keys (h : s.Entered taken pairs) : s.members.keys = pairs.map Prod.snd := by
  rw [OrderedMap.keys, h.entries, List.map_map]
  rfl

theorem Entered.get? (h : s.Entered taken pairs) (hd : (d, name) ∈ pairs) :
    s.members.get? name = some { d with name } := by
  rw [OrderedMap.get?_eq_some, h.entries]
  exact List.mem_map_of_mem hd

theorem Entered.name_eq (h : s.Entered taken pairs) {m : MemberDecl} (hm : s.members.get? name = some m) :
    m.name = name := by
  rw [OrderedMap.get?_eq_some, h.entries] at hm
  obtain ⟨p, _, he⟩ := List.mem_map.mp hm
  cases he
  rfl

theorem Entered.nodup (h : s.Entered taken pairs) : (pairs.map Prod.snd).Nodup := by
  rw [← h.keys]
  exact s.members.nodup

/-- A name is noted by the last declaration that bears it, if something of that name can be called. -/
theorem renamed_addMembers (callables : List String) {ms : List MemberDecl}
    (hms : (ms.map MemberDecl.name).Nodup) (s : Schema) (a : String) :
    ((∀ m ∈ ms, m.name ≠ a ∨ a ∉ callables) → (addMembers callables s ms).1.renamed.get? a =
      s.renamed.get? a) ∧
      (a ∈ callables → ∀ m b,
        (m, b) ∈ ms.zip ((entered callables s.members.keys ms).map MemberDecl.name) → m.name = a →
        (addMembers callables s ms).1.renamed.get? a = some b) := by
  induction ms generalizing s with
  | nil => exact ⟨fun _ => rfl, fun _ _ _ hm => absurd hm List.not_mem_nil⟩
  | cons d rest ih =>
      obtain ⟨hd, hrest⟩ := List.nodup_cons.mp hms
      obtain ⟨members, hadd, hentries⟩ := addMember_eq callables s d rfl
      have hkeys : members.keys = s.members.keys ++ [settle (callables ++ s.members.keys) d.name] := by
        rw [OrderedMap.keys, hentries, List.map_append]
        rfl
      obtain ⟨hsame, hnoted⟩ := ih hrest (addMember callables s d).1
      simp only [hadd, hkeys] at hsame hnoted
      simp only [addMembers, hadd, entered, List.map_cons, List.zip_cons_cons]
      refine ⟨fun hother => ?_, fun ha m b hm he => ?_⟩
      · rw [hsame fun m hm => hother m (List.mem_cons_of_mem d hm)]
        split
        · next hcalled =>
            have hne : a ≠ d.name :=
              fun he => (hother d List.mem_cons_self).elim (· he.symm) (· (he ▸ hcalled))
            rw [OrderedMap.get?_insert_of_ne _ _ hne]
        · rfl
      · rcases List.mem_cons.mp hm with hm | hm
        · cases hm
          rw [hsame fun m' hm' => Or.inl fun he' => hd
            (List.mem_map.mpr ⟨m', hm', he'.trans he.symm⟩), if_pos (he ▸ ha),
            OrderedMap.get?_insert, if_pos he.symm]
        · exact hnoted ha m b hm he

/-- Declarations with the names under which they are entered. -/
def enteredAs (callables : List String) (ms : List MemberDecl) : List (MemberDecl × String) :=
  ms.zip ((entered callables [] ms).map MemberDecl.name)

theorem map_entered_pairs (callables keys : List String) (ms : List MemberDecl) :
    (entered callables keys ms).map (fun m => (m.name, m)) =
      (ms.zip ((entered callables keys ms).map MemberDecl.name)).map fun p =>
        (p.2, { p.1 with name := p.2 }) := by
  induction ms generalizing keys with
  | nil => rfl
  | cons m rest ih => simp only [entered, List.map_cons, List.zip_cons_cons, ih]

section

variable (callables : List String) (ms : List MemberDecl)

theorem length_entered : ms.length = ((entered callables [] ms).map MemberDecl.name).length := by
  have hcomponents := congrArg List.length
    (map_entered (f := MemberDecl.isComponent) (fun _ _ => rfl) callables [] ms)
  simp only [List.length_map] at hcomponents ⊢
  exact hcomponents.symm

theorem map_fst_enteredAs : (enteredAs callables ms).map Prod.fst = ms :=
  List.map_fst_zip (length_entered callables ms).le

theorem enteredAs_getElem? {i : Nat} {p : MemberDecl × String}
    (hp : (enteredAs callables ms)[i]? = some p) :
    p.2 = settle (callables ++ ((enteredAs callables ms).take i).map Prod.snd) p.1.name := by
  obtain ⟨hd, hname⟩ := List.getElem?_zip_eq_some.mp hp
  rw [entered_getElem?, List.getElem?_map, hd, List.nil_append] at hname
  rw [List.map_take, enteredAs, List.map_snd_zip (length_entered callables ms).ge]
  exact (Option.some.inj hname).symm

end

theorem entered_enteredAs (h : ((declared u).map MemberDecl.name).Nodup) :
    Entered (ofUnit u).1.callables (enteredAs (ofUnit u).1.callables (declared u)) (ofUnit u).1 := by
  refine ⟨(ofUnit_entered u).1.trans (map_entered_pairs _ _ _), fun {a b} => ?_, fun p hp => ?_,
    fun {i p} hp => ?_⟩
  · obtain ⟨s, hmembers, hnone, hcallables, hunit⟩ := exists_addMembers u
    obtain ⟨hsame, hnoted⟩ := renamed_addMembers s.callables h s a
    rw [hmembers] at hnoted
    rw [hcallables, hunit]
    refine ⟨fun hb => ?_, fun ⟨ha, d, hd, he⟩ => hnoted ha d b hd he⟩
    by_cases hother : ∀ m ∈ declared u, m.name ≠ a ∨ a ∉ s.callables
    · rw [hsame hother, hnone] at hb
      cases hb
    · push Not at hother
      obtain ⟨d, hd, he, ha⟩ := hother
      rw [← map_fst_enteredAs s.callables (declared u)] at hd
      obtain ⟨⟨_, b'⟩, hpair, rfl⟩ := List.mem_map.mp hd
      cases hb.symm.trans (hnoted ha _ b' hpair he)
      exact ⟨ha, _, hpair, he⟩
  · obtain ⟨i, hi⟩ := List.mem_iff_getElem?.mp hp
    rw [enteredAs_getElem? _ _ hi]
    exact fun htaken => settle_not_mem _ _ (List.mem_append_left _ htaken)
  · rw [enteredAs_getElem? _ _ hp, settle]
    split
    · next htaken => exact Or.inr (List.mem_append.mp htaken)
    · exact Or.inl rfl

theorem Entered.get?_of_taken (h : s.Entered taken pairs) (hname : name ∈ taken) :
    s.members.get? name = none := by
  refine Option.eq_none_iff_forall_ne_some.mpr fun m hm => ?_
  rw [OrderedMap.get?_eq_some, h.entries] at hm
  obtain ⟨p, hp, he⟩ := List.mem_map.mp hm
  cases he
  exact h.free p hp hname

theorem Entered.member?_iff (h : s.Entered taken pairs) (hd : (d, name) ∈ pairs) :
    s.member? d.name = some { d with name } ↔ name = d.name ∨ d.name ∈ taken := by
  constructor
  · intro hm
    rw [member?] at hm
    split at hm
    · next m hfound =>
        cases hm
        exact Or.inl (h.name_eq hfound)
    · obtain ⟨name', hrenamed, _⟩ := Option.bind_eq_some_iff.mp hm
      exact Or.inr (h.renamed.mp hrenamed).1
  · rintro (rfl | htaken)
    · rw [member?, h.get? hd]
    · have hrenamed : s.renamed.get? d.name = some name := h.renamed.mpr ⟨htaken, d, hd, rfl⟩
      rw [member?, h.get?_of_taken htaken, hrenamed]
      exact h.get? hd

theorem Entered.component?_iff (h : s.Entered taken pairs) {c : MemberDecl} (hc : (c, name) ∈ pairs)
    (hcomponent : c.isComponent = true) : s.component? c.name = some { c with name } ↔ name = c.name := by
  constructor
  · intro hm
    exact h.name_eq (Option.eq_some_of_filter_eq_some hm)
  · rintro rfl
    rw [component?, h.get? hc]
    exact Option.filter_some_pos hcomponent

/-- A name that can stand for a component in a default: it has no blanks around it and does not say
that there is no object. -/
def Referable (name : String) : Prop :=
  String.ofList (Text.trim name.toList) = name ∧ name ≠ "" ∧ name ≠ "None"

instance (name : String) : Decidable (Referable name) := inferInstanceAs (Decidable (_ ∧ _))

/-- Authored names lead to the members that their own declarations have become, those of components
also where they stand, with or without blanks around them, as the default of an object. -/
structure Resolves (s : Schema) (ds : List MemberDecl) : Prop where
  members : ∀ {i : Nat} {d : MemberDecl}, ds[i]? = some d →
    ∃ name, s.members.values[i]? = some { d with name } ∧ s.member? d.name = some { d with name }
  components : ∀ {i : Nat} {c : MemberDecl}, ds[i]? = some c → c.isComponent = true →
    ∃ name, s.members.values[i]? = some { c with name } ∧ s.component? c.name = some { c with name } ∧
      ∀ base text, (∃ cls, base = .object cls ∨ base = .interface cls) →
        Text.trim text.toList = Text.trim c.name.toList →
        DefaultValue.ofText? s ⟨base, .single⟩ text = some (.object (some name))

theorem ofText?_object {base : BaseType} (hbase : ∃ cls, base = .object cls ∨ base = .interface cls)
    (text : String) :
    DefaultValue.ofText? s ⟨base, .single⟩ text =
      DefaultValue.object? s (String.ofList (Text.trim text.toList)) := by
  obtain ⟨cls, rfl | rfl⟩ := hbase <;> rfl

theorem Entered.object?_iff (h : s.Entered taken pairs) {text : String} :
    DefaultValue.object? s text = some (.object (some name)) ↔
      text = name ∧ text ≠ "" ∧ text ≠ "None" ∧ (s.component? text).isSome = true := by
  rw [DefaultValue.object?]
  split
  · next hnone =>
      refine iff_of_false (fun he => ?_) fun hn => hnone.elim hn.2.1 hn.2.2.1
      cases he
  · next hsome =>
      rw [Option.map_eq_some_iff, Option.isSome_iff_exists]
      constructor
      · rintro ⟨c, hc, he⟩
        cases he
        exact ⟨(h.name_eq (Option.eq_some_of_filter_eq_some hc)).symm, fun he => hsome (Or.inl he),
          fun he => hsome (Or.inr he), c, hc⟩
      · rintro ⟨rfl, -, -, c, hc⟩
        exact ⟨c, hc, by rw [h.name_eq (Option.eq_some_of_filter_eq_some hc)]⟩

/-- A component is found by its name in a default just if the name is kept and can stand there. -/
theorem Entered.default_iff (h : s.Entered taken pairs) {c : MemberDecl}
    (hfound : s.component? c.name = some c) :
    (∀ base text, (∃ cls, base = .object cls ∨ base = .interface cls) →
      Text.trim text.toList = Text.trim c.name.toList →
      DefaultValue.ofText? s ⟨base, .single⟩ text = some (.object (some c.name))) ↔ Referable c.name := by
  constructor
  · intro hall
    have hself := hall (.object "") c.name ⟨"", Or.inl rfl⟩ rfl
    rw [ofText?_object ⟨"", Or.inl rfl⟩, h.object?_iff] at hself
    obtain ⟨htrim, hempty, hnone, -⟩ := hself
    exact ⟨htrim, htrim ▸ hempty, htrim ▸ hnone⟩
  · rintro ⟨htrim, hempty, hnone⟩ base text hbase htext
    rw [ofText?_object hbase, htext, htrim, h.object?_iff]
    exact ⟨rfl, hempty, hnone, Option.isSome_iff_exists.mpr ⟨c, hfound⟩⟩

theorem Entered.values (h : s.Entered taken pairs) (i : Nat) :
    s.members.values[i]? = (pairs[i]?).map fun p => { p.1 with name := p.2 } := by
  rw [OrderedMap.values, h.entries, List.map_map, List.getElem?_map]
  rfl

theorem Entered.resolves_iff (h : s.Entered taken pairs) : s.Resolves (pairs.map Prod.fst) ↔
    (∀ p ∈ pairs, p.2 = p.1.name ∨ (p.1.name ∈ taken ∧ p.1.isComponent = false)) ∧
      ∀ d ∈ pairs.map Prod.fst, d.isComponent = true → Referable d.name := by
  have hpair {i : Nat} {d : MemberDecl} (hd : (pairs.map Prod.fst)[i]? = some d) :
      ∃ name, (d, name) ∈ pairs ∧ s.members.values[i]? = some { d with name } := by
    rw [List.getElem?_map] at hd
    obtain ⟨p, hp, rfl⟩ := Option.map_eq_some_iff.mp hd
    exact ⟨p.2, List.mem_of_getElem? hp, by rw [h.values, hp, Option.map_some]⟩
  constructor
  · intro hr
    constructor
    · intro p hp
      obtain ⟨i, hi⟩ := List.mem_iff_getElem?.mp hp
      have hdecl : (pairs.map Prod.fst)[i]? = some p.1 := by rw [List.getElem?_map, hi, Option.map_some]
      have hvalue : s.members.values[i]? = some { p.1 with name := p.2 } := by
        rw [h.values, hi, Option.map_some]
      have hname {name : String} (he : s.members.values[i]? = some { p.1 with name }) : name = p.2 :=
        congrArg MemberDecl.name (Option.some.inj (he.symm.trans hvalue))
      cases hcomponent : p.1.isComponent with
      | true =>
          obtain ⟨name, he, hfound, _⟩ := hr.components hdecl hcomponent
          obtain rfl := hname he
          exact Or.inl ((h.component?_iff hp hcomponent).mp hfound)
      | false =>
          obtain ⟨name, he, hfound⟩ := hr.members hdecl
          obtain rfl := hname he
          exact ((h.member?_iff hp).mp hfound).imp_right fun htaken => ⟨htaken, rfl⟩
    · intro c hc hcomponent
      obtain ⟨i, hi⟩ := List.mem_iff_getElem?.mp hc
      obtain ⟨name, _, hfound, hdefault⟩ := hr.components hi hcomponent
      obtain rfl : name = c.name := h.name_eq (Option.eq_some_of_filter_eq_some hfound)
      exact (h.default_iff hfound).mp hdefault
  · rintro ⟨hall, hreferable⟩
    refine ⟨fun hd => ?_, fun {i c} hc hcomponent => ?_⟩
    · obtain ⟨name, hmem, hvalue⟩ := hpair hd
      exact ⟨name, hvalue, (h.member?_iff hmem).mpr ((hall _ hmem).imp_right And.left)⟩
    · obtain ⟨name, hmem, hvalue⟩ := hpair hc
      obtain rfl : name = c.name :=
        (hall _ hmem).resolve_right fun hmoved => absurd (hcomponent.symm.trans hmoved.2)
          Bool.false_ne_true.symm
      have hfound := (h.component?_iff hmem hcomponent).mpr rfl
      exact ⟨c.name, hvalue, hfound,
        (h.default_iff hfound).mpr (hreferable c (List.mem_of_getElem? hc) hcomponent)⟩

/-- Whatever cannot be called keeps its name, unless a member was renamed to it. -/
theorem Entered.kept (h : s.Entered taken pairs)
    (hdistinct : ((pairs.map Prod.fst).map MemberDecl.name).Nodup)
    (hclear : ∀ d ∈ pairs.map Prod.fst, d.name ∉ s.renamed.values) {i : Nat}
    {p : MemberDecl × String} (hp : pairs[i]? = some p) (hfree : p.1.name ∉ taken) :
    p.2 = p.1.name := by
  -- By induction on the place: the member that took the name is one that kept its own.
  induction i using Nat.strongRecOn generalizing p with
  | ind i ih =>
      rcases h.moved hp with hkept | htaken | hlost
      · exact hkept
      · exact absurd htaken hfree
      · obtain ⟨q, hq, he⟩ := List.mem_map.mp hlost
        obtain ⟨k, hk⟩ := List.mem_iff_getElem?.mp hq
        rw [List.getElem?_take] at hk
        split at hk
        · next hki =>
            by_cases hcalled : q.1.name ∈ taken
            · have hrenamed : s.renamed.get? q.1.name = some p.1.name :=
                h.renamed.mpr ⟨hcalled, q.1, he ▸ List.mem_of_getElem? hk, rfl⟩
              exact absurd (OrderedMap.mem_values.mpr ⟨_, hrenamed⟩)
                (hclear _ (List.mem_map_of_mem (List.mem_of_getElem? hp)))
            · -- Then two declarations would have one name.
              have hsame : q.1.name = p.1.name := (ih k hki hk hcalled).symm.trans he
              have hplaces : ((pairs.map Prod.fst).map MemberDecl.name)[k]? =
                  ((pairs.map Prod.fst).map MemberDecl.name)[i]? := by
                simp [hk, hp, hsame]
              have hlt : k < ((pairs.map Prod.fst).map MemberDecl.name).length := by
                simpa using (List.getElem?_eq_some_iff.mp hk).1
              exact absurd ((List.getElem?_inj hlt hdistinct).mp hplaces) (Nat.ne_of_lt hki)
        · cases hk

theorem Entered.undisturbed_iff (h : s.Entered taken pairs)
    (hdistinct : ((pairs.map Prod.fst).map MemberDecl.name).Nodup) :
    (∀ p ∈ pairs, p.2 = p.1.name ∨ (p.1.name ∈ taken ∧ p.1.isComponent = false)) ↔
      (∀ d ∈ pairs.map Prod.fst, d.isComponent = true → d.name ∉ taken) ∧
        ∀ d ∈ pairs.map Prod.fst, d.name ∉ s.renamed.values := by
  constructor
  · intro hall
    refine ⟨List.forall_mem_map.mpr fun p hp hcomponent htaken => ?_,
      List.forall_mem_map.mpr fun p hp hrenamed => ?_⟩
    · rcases hall p hp with hkept | ⟨_, hvariable⟩
      · exact h.free p hp (hkept ▸ htaken)
      · exact absurd (hcomponent.symm.trans hvariable) (by simp)
    · obtain ⟨a, ha⟩ := OrderedMap.mem_values.mp hrenamed
      obtain ⟨htaken, d, hd, rfl⟩ := h.renamed.mp ha
      have hfree : p.1.name ∉ taken := h.free _ hd
      have hkept : p.2 = p.1.name := (hall p hp).resolve_right fun hmoved => hfree hmoved.1
      -- The two were entered under one name.
      have hsame : p = (d, p.1.name) := List.inj_on_of_nodup_map h.nodup hp hd hkept
      exact hfree (congrArg (fun q : MemberDecl × String => q.1.name) hsame ▸ htaken)
  · rintro ⟨hcomponents, hclear⟩ p hp
    obtain ⟨i, hi⟩ := List.mem_iff_getElem?.mp hp
    by_cases htaken : p.1.name ∈ taken
    · refine Or.inr ⟨htaken, Bool.eq_false_iff.mpr fun hcomponent => ?_⟩
      exact hcomponents _ (List.mem_map_of_mem hp) hcomponent htaken
    · exact Or.inl (h.kept hdistinct hclear hi htaken)

theorem forall_component {P : String → Prop} :
    (∀ d ∈ declared u, d.isComponent = true → P d.name) ↔ ∀ c ∈ u.components, P c.name := by
  simp [declared, or_imp, forall_and]

/-- If no two declarations have one name, authored names lead to their own members just in case no
component bears the name of something that can be called or a name that cannot stand in a default,
and no member is renamed to an authored name. -/
theorem ofUnit_resolves_iff (h : ((declared u).map MemberDecl.name).Nodup) :
    (ofUnit u).1.Resolves (declared u) ↔
    (∀ c ∈ u.components, c.name ∉ (ofUnit u).1.callables) ∧
      (∀ d ∈ declared u, d.name ∉ (ofUnit u).1.renamed.values) ∧
      ∀ c ∈ u.components, Referable c.name := by
  have hpairs := map_fst_enteredAs (ofUnit u).1.callables (declared u)
  have hentered := entered_enteredAs h
  rw [← forall_component (P := fun name => name ∉ (ofUnit u).1.callables),
    ← forall_component (P := Referable), ← hpairs,
    ← and_assoc]
  rw [← hpairs] at h
  rw [hentered.resolves_iff, hentered.undisturbed_iff h]

def gate (components : List ComponentDecl) (fields : List VariableDecl) : CompilationUnit :=
  { name := "Gate"
    components
    fields
    functionGraphs := [(Graph.addNode { name := "open" } (ScriptNode.entry "open")).2] }

def gateSchema : Schema :=
  { name := "Gate"
    functions := .ofList [("open", 0)]
    eventGraphFunction := "ExecuteEventGraph_Gate" }

theorem ofUnit_gate (components : List ComponentDecl) (fields : List VariableDecl) :
    (ofUnit (gate components fields)).1 =
    (addMembers ["open", "ExecuteEventGraph_Gate"] gateSchema (declared (gate components fields))).1 := by
  have hfunctions : addFunctions ∅ 0 [(Graph.addNode { name := "open" } (ScriptNode.entry "open")).2] =
      (.ofList [("open", 0)], []) := by cbv
  have hgraph : eventGraphName "Gate" = "ExecuteEventGraph_Gate" := rfl
  simp only [ofUnit, gate, hfunctions, hgraph]
  rfl

def openGate : CompilationUnit := gate [⟨"mesh", "Mesh"⟩] [⟨"open", ⟨.bool, .single⟩, some "true"⟩]

theorem openGate_resolved : ((declared openGate).map MemberDecl.name).Nodup ∧
    (ofUnit openGate).1.members.keys = ["mesh", "open_1"] ∧
      (ofUnit openGate).1.Resolves (declared openGate) := by
  have hdistinct : ((declared openGate).map MemberDecl.name).Nodup := by decide
  refine ⟨hdistinct, ?_, (ofUnit_resolves_iff hdistinct).mpr ?_⟩
  · rw [openGate, ofUnit_gate]
    decide +kernel
  · rw [openGate, ofUnit_gate]
    decide +kernel

/-- A gate with a component that has the name of the function, and a variable that has the name which the
component gets. -/
def leverGate : CompilationUnit := gate [⟨"open", "Lever"⟩] [⟨"open_1", ⟨.bool, .single⟩, none⟩]

/-- A gate with components whose names cannot stand in a default. -/
def blankGate : CompilationUnit := gate [⟨"None", "Lever"⟩, ⟨" mesh", "Mesh"⟩] []

/-- In the first unit, the name of the component leads nowhere, not even in a default, and that of
the variable leads to the component. In the second one, a default that names a component is read as
no object or not at all. -/
theorem leverGate_unresolved : (((declared leverGate).map MemberDecl.name).Nodup ∧
    (ofUnit leverGate).1.component? "open" = none ∧
    (DefaultValue.ofText? (ofUnit leverGate).1 ⟨.object "Lever", .single⟩ "open").isNone = true ∧
    (ofUnit leverGate).1.member? "open_1" = some ⟨"open_1", ⟨.object "Lever", .single⟩, true, none⟩ ∧
    ¬ (ofUnit leverGate).1.Resolves (declared leverGate)) ∧
    ((declared blankGate).map MemberDecl.name).Nodup ∧
    (ofUnit blankGate).1.component? "None" = some ⟨"None", ⟨.object "Lever", .single⟩, true, none⟩ ∧
    DefaultValue.ofText? (ofUnit blankGate).1 ⟨.object "Lever", .single⟩ "None" = some (.object none) ∧
    (ofUnit blankGate).1.component? " mesh" = some ⟨" mesh", ⟨.object "Mesh", .single⟩, true, none⟩ ∧
    (DefaultValue.ofText? (ofUnit blankGate).1 ⟨.object "Mesh", .single⟩ " mesh").isNone = true ∧
    ¬ (ofUnit blankGate).1.Resolves (declared blankGate) := by
  have hlost : (ofUnit leverGate).1.component? "open" = none := by
    rw [leverGate, ofUnit_gate]
    decide +kernel
  have hmesh : (DefaultValue.ofText? (ofUnit blankGate).1 ⟨.object "Mesh", .single⟩
      " mesh").isNone = true := by
    rw [blankGate, ofUnit_gate]
    decide +kernel
  refine ⟨⟨by decide, hlost, ?_, ?_, fun hr => ?_⟩, by decide, ?_, rfl, ?_, hmesh, fun hr => ?_⟩
  · rw [leverGate, ofUnit_gate]
    decide +kernel
  · rw [leverGate, ofUnit_gate]
    decide +kernel
  · have hlever : (declared leverGate)[0]? = some ⟨"open", ⟨.object "Lever", .single⟩, true, none⟩ := rfl
    obtain ⟨name, _, hfound, _⟩ := hr.components hlever rfl
    exact Option.some_ne_none _ (hfound.symm.trans hlost)
  · rw [blankGate, ofUnit_gate]
    decide +kernel
  · rw [blankGate, ofUnit_gate]
    decide +kernel
  · have hdecl : (declared blankGate)[1]? = some ⟨" mesh", ⟨.object "Mesh", .single⟩, true, none⟩ := rfl
    obtain ⟨name, _, _, hdefault⟩ := hr.components hdecl rfl
    rw [hdefault (.object "Mesh") " mesh" ⟨"Mesh", Or.inl rfl⟩ rfl] at hmesh
    cases hmesh

end VisualScript.Schema
