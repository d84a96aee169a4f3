import VisualScript.Proofs.Class.Collisions

namespace VisualScript

namespace Text

/-- Letters, digits and underscores, of which the first is no digit. -/
structure Identifier (s : List Char) : Prop where
  start : ∃ c, s.head? = some c ∧ c.isDigit = false
  plain : ∀ c ∈ s, c.isAlphanum = true ∨ c = '_'

theorem identifier_of_isIdentifier {s : List Char} (h : isIdentifier s = true) : Identifier s := by
  cases s with
  | nil => cases h
  | cons c rest =>
      simp only [isIdentifier, Bool.and_eq_true, Bool.not_eq_true', List.all_eq_true,
        Bool.or_eq_true, beq_iff_eq] at h
      exact ⟨⟨c, rfl, h.1⟩, h.2⟩

end Text

def Schema.HasComponent (s : Schema) (name : String) : Prop :=
  ∃ c, s.members.get? name = some c ∧ c.isComponent = true

namespace DefaultValue

/-- A single value of a base type. An object is none, or it is referred to by one of the names. -/
inductive Suits (refers : String → Prop) : BaseType → DefaultValue → Prop
  | bool (b : Bool) : Suits refers .bool (.bool b)
  | byte {n : Int} (h : 0 ≤ n ∧ n ≤ 255) : Suits refers .byte (.int n)
  | int {n : Int} (h : -2147483648 ≤ n ∧ n ≤ 2147483647) : Suits refers .int (.int n)
  | int64 {n : Int} (h : -9223372036854775808 ≤ n ∧ n ≤ 9223372036854775807) : Suits refers .int64 (.int n)
  | float (x : Binary64) : Suits refers .float (.float x)
  | string (s : String) : Suits refers .string (.str s)
  | text (s : String) : Suits refers .text (.str s)
  | name (s : String) : Suits refers .name (.name s)
  | enum {e v : String} (h : v = "" ∨ Text.Identifier v.toList) : Suits refers (.enum e) (.enum e v)
  | struct (type s : String) : Suits refers (.struct type) (.struct s)
  | object {c : Option String} (cls : String) (h : ∀ name, c = some name → refers name) :
      Suits refers (.object cls) (.object c)
  | interface {c : Option String} (type : String) (h : ∀ name, c = some name → refers name) :
      Suits refers (.interface type) (.object c)
  | exec : Suits refers .exec .none
  | wildcard : Suits refers .wildcard .none

/-- A value of a type. -/
inductive Fits (refers : String → Prop) : PinType → DefaultValue → Prop
  | single {base : BaseType} {v : DefaultValue} (h : Suits refers base v) : Fits refers ⟨base, .single⟩ v
  | array {base : BaseType} {items : List DefaultValue} (h : ∀ v ∈ items, Suits refers base v) :
      Fits refers ⟨base, .array⟩ (.array items)

variable {refers : String → Prop} {s : Schema} {v : DefaultValue}

theorem zero_fits (refers : String → Prop) (t : PinType) : Fits refers t (zero t) := by
  obtain ⟨base, container⟩ := t
  cases container with
  | array => exact .array (List.forall_mem_nil _)
  | single =>
      refine .single ?_
      cases base with
      | bool => exact .bool _
      | byte => exact .byte (by decide)
      | int => exact .int (by decide)
      | int64 => exact .int64 (by decide)
      | float => exact .float _
      | string => exact .string _
      | text => exact .text _
      | name => exact .name _
      | enum => exact .enum (Or.inl rfl)
      | struct => exact .struct _ _
      | object cls => exact .object cls fun name h => absurd h.symm (Option.some_ne_none name)
      | interface type => exact .interface type fun name h => absurd h.symm (Option.some_ne_none name)
      | exec => exact .exec
      | wildcard => exact .wildcard

theorem bool?_eq_some {text : List Char} (h : bool? text = some v) : ∃ b, v = .bool b := by
  simp only [bool?] at h
  split at h
  · cases h; exact ⟨_, rfl⟩
  · split at h
    · cases h; exact ⟨_, rfl⟩
    · cases h

theorem eq_int_of_within {α : Type} {o : Option α} {f : α → Int} {lo hi : Int}
    (h : (o.bind fun a => Text.within lo hi (f a)).map DefaultValue.int = some v) :
    ∃ n, v = .int n ∧ lo ≤ n ∧ n ≤ hi := by
  obtain ⟨n, hn, rfl⟩ := Option.map_eq_some_iff.mp h
  obtain ⟨a, -, hn⟩ := Option.bind_eq_some_iff.mp hn
  rw [Text.within] at hn
  split at hn
  · next hrange =>
    cases hn
    exact ⟨_, rfl, hrange⟩
  · cases hn

theorem object?_eq_some (hs : s.Named) {text : String} (h : object? s text = some v) :
    ∃ c, v = .object c ∧ ∀ name, c = some name → s.HasComponent name := by
  rw [object?] at h
  split at h
  · cases h
    exact ⟨_, rfl, fun name h => absurd h.symm (Option.some_ne_none name)⟩
  · obtain ⟨c, hc, rfl⟩ := Option.map_eq_some_iff.mp h
    obtain ⟨hget, hcomponent⟩ := Option.filter_eq_some_iff.mp hc
    refine ⟨_, rfl, fun name hname => ?_⟩
    cases hname
    exact ⟨c, hs text c hget ▸ hget, hcomponent⟩

theorem single?_suits (hs : s.Named) {base : BaseType} {text : List Char}
    (h : single? s base text = some v) :
    Suits s.HasComponent base v := by
  cases base with
  | bool =>
      obtain ⟨b, rfl⟩ := bool?_eq_some h
      exact .bool b
  | byte =>
      obtain ⟨n, rfl, hn⟩ := eq_int_of_within h
      exact .byte hn
  | int =>
      obtain ⟨n, rfl, hn⟩ := eq_int_of_within (f := id) h
      exact .int hn
  | int64 =>
      obtain ⟨n, rfl, hn⟩ := eq_int_of_within (f := id) h
      exact .int64 hn
  | float =>
      obtain ⟨x, -, rfl⟩ := Option.map_eq_some_iff.mp h
      exact .float x
  | string => cases h; exact .string _
  | text => cases h; exact .text _
  | name => cases h; exact .name _
  | enum e =>
      simp only [single?] at h
      split at h
      · next hid =>
        cases h
        exact .enum (Or.inr (Text.identifier_of_isIdentifier (by rwa [String.toList_ofList])))
      · cases h
  | struct type => cases h; exact .struct type _
  | object cls =>
      obtain ⟨c, rfl, hc⟩ := object?_eq_some hs h
      exact .object cls hc
  | interface type =>
      obtain ⟨c, rfl, hc⟩ := object?_eq_some hs h
      exact .interface type hc
  | exec => cases h
  | wildcard => cases h

theorem forall_of_mapM {α β : Type} {f : α → Option β} {P : β → Prop}
    (hf : ∀ a b, f a = some b → P b) {l : List α} {bs : List β} (h : l.mapM f = some bs) :
    ∀ b ∈ bs, P b := by
  induction l generalizing bs with
  | nil => cases h; exact List.forall_mem_nil _
  | cons a l ih =>
      rw [List.mapM_cons] at h
      obtain ⟨b, hb, h⟩ := Option.bind_eq_some_iff.mp h
      obtain ⟨rest, hrest, h⟩ := Option.bind_eq_some_iff.mp h
      cases h
      exact List.forall_mem_cons.mpr ⟨hf a b hb, ih hrest⟩

theorem ofText?_fits (hs : s.Named) {t : PinType} {text : String} (h : ofText? s t text = some v) :
    Fits s.HasComponent t v := by
  obtain ⟨base, container⟩ := t
  cases container with
  | single => exact .single (single?_suits hs h)
  | array =>
      simp only [ofText?] at h
      split at h
      · cases h
      · cases h
        exact .array (List.forall_mem_nil _)
      · obtain ⟨items, hitems, rfl⟩ := Option.map_eq_some_iff.mp h
        exact .array (forall_of_mapM (fun _ _ hitem => single?_suits hs hitem) hitems)

end DefaultValue

theorem Schema.type_of_component {u : CompilationUnit} {name : String} {c : MemberDecl}
    (h : (ofUnit u).1.members.get? name = some c) (hc : c.isComponent = true) :
    ∃ cls, c.type = ⟨.object cls, .single⟩ := by
  have hentered : c ∈ entered (ofUnit u).1.callables [] (declared u) := by
    rw [OrderedMap.get?_eq_some, (ofUnit_entered u).1] at h
    obtain ⟨m, hm, he⟩ := List.mem_map.mp h
    cases he
    exact hm
  -- But for its name, the member is what was declared.
  have hdeclared := List.mem_map_of_mem (f := fun m : MemberDecl => (m.type, m.isComponent)) hentered
  rw [map_entered fun _ _ => rfl, declared, List.map_append, List.map_map, List.map_map] at hdeclared
  rcases List.mem_append.mp hdeclared with hd | hd <;> obtain ⟨d, -, he⟩ := List.mem_map.mp hd
  · exact ⟨d.cls, (congrArg Prod.fst he).symm⟩
  · exact absurd ((congrArg Prod.snd he).trans hc) Bool.false_ne_true

def MemberSlot.isRejected (s : Schema) (m : MemberSlot) : Bool :=
  m.origin ≠ .component && m.default.any fun text => (DefaultValue.ofText? s m.type text).isNone

/-- The value a member starts with: a component with itself, any other with its default, or with
zero if it has none or one that is rejected. -/
inductive MemberSlot.StartsWith (s : Schema) (m : MemberSlot) : DefaultValue → Prop
  | component (h : m.origin = .component) : m.StartsWith s (.object (some m.name))
  | blank (h : m.origin ≠ .component) (hd : m.default = none) : m.StartsWith s (.zero m.type)
  | read (h : m.origin ≠ .component) {text : String} {v : DefaultValue} (hd : m.default = some text)
      (hv : DefaultValue.ofText? s m.type text = some v) : m.StartsWith s v
  | rejected (h : m.isRejected s = true) : m.StartsWith s (.zero m.type)

namespace ClassLayout

/-- The layouts of a unit: that of the members it declares, with whatever is added later. -/
inductive Laid (u : CompilationUnit) : ClassLayout → Prop
  | declared : Laid u (ofSchema u (Schema.ofUnit u).1)
  | addFunction {l : ClassLayout} (h : Laid u l) (f : Signature) : Laid u (l.addFunction f)
  | addPromoted {l : ClassLayout} (h : Laid u l) (promoted : List PromotedMember) :
      Laid u (l.addPromoted promoted)

variable {u : CompilationUnit} {l : ClassLayout} {s : Schema} {name : String} {m : MemberSlot}

theorem Laid.slot (h : Laid u l) (hm : l.members.get? name = some m) :
    m.name = name ∧ (m.origin = .component →
    (Schema.ofUnit u).1.HasComponent name ∧ ∃ cls, m.type = ⟨.object cls, .single⟩) := by
  induction h with
  | declared =>
      rw [get?_ofSchema (Schema.ofUnit_named u)] at hm
      obtain ⟨d, hd, rfl⟩ := Option.map_eq_some_iff.mp hm
      refine ⟨Schema.ofUnit_named u name d hd, fun horigin => ?_⟩
      have hcomponent : d.isComponent = true := by
        by_contra hc
        simp [slotOf, hc] at horigin
      exact ⟨⟨d, hd, hcomponent⟩, Schema.type_of_component hd hcomponent⟩
  | addFunction _ f ih => exact ih hm
  | addPromoted _ promoted ih =>
      rw [get?_addPromoted] at hm
      rcases Option.or_eq_some_iff.mp hm with hm | ⟨-, hm⟩
      · exact ih hm
      · obtain ⟨p, hp, rfl⟩ := Option.map_eq_some_iff.mp hm
        have hname := List.find?_some hp
        exact ⟨of_decide_eq_true hname, fun horigin => by cases horigin⟩

theorem slotValue_eq (s : Schema) (m : MemberSlot) : m.StartsWith s (slotValue s m).1 ∧
    (slotValue s m).2 = if m.isRejected s then
      [.unparsableDefault m.name (m.default.getD "") m.type.display] else [] := by
  rw [slotValue]
  by_cases h : m.origin = .component
  · have hkept : m.isRejected s = false := by simp [MemberSlot.isRejected, h]
    rw [if_pos h, hkept]
    exact ⟨.component h, rfl⟩
  · rw [if_neg h]
    cases hd : m.default with
    | none =>
        have hkept : m.isRejected s = false := by simp [MemberSlot.isRejected, hd]
        rw [hkept]
        exact ⟨.blank h hd, rfl⟩
    | some text =>
        cases hv : DefaultValue.ofText? s m.type text with
        | some v =>
            have hkept : m.isRejected s = false := by simp [MemberSlot.isRejected, hd, hv]
            simp only [hkept, hv]
            exact ⟨.read h hd hv, rfl⟩
        | none =>
            have hrejected : m.isRejected s = true := by simp [MemberSlot.isRejected, h, hd, hv]
            simp only [hrejected, hv]
            exact ⟨.rejected hrejected, rfl⟩

/-- The object has one value for each member, in the order of the members, and it fits the member's
type. What is reported are just the defaults that are rejected. -/
structure Instantiates (s : Schema) (l : ClassLayout) (o : DefaultObject) (issues : List Issue) :
    Prop where
  keys : o.values.keys = l.members.keys
  values : ∀ {name : String} {m : MemberSlot}, l.members.get? name = some m → m.name = name ∧
    ∃ v, o.values.get? name = some v ∧ m.StartsWith s v ∧ v.Fits s.HasComponent m.type
  issues : issues = (l.members.values.filter fun m => m.isRejected s).map fun m =>
    .unparsableDefault m.name (m.default.getD "") m.type.display

theorem Laid.fits (h : Laid u l) (hm : l.members.get? name = some m) {v : DefaultValue}
    (hv : m.StartsWith (Schema.ofUnit u).1 v) : v.Fits (Schema.ofUnit u).1.HasComponent m.type := by
  cases hv with
  | component horigin =>
      obtain ⟨hname, hcomponent⟩ := h.slot hm
      obtain ⟨hhas, cls, htype⟩ := hcomponent horigin
      rw [htype]
      exact .single (.object cls fun c hc => Option.some.inj hc ▸ hname ▸ hhas)
  | blank | rejected => exact DefaultValue.zero_fits _ _
  | read _ _ hv => exact DefaultValue.ofText?_fits (Schema.ofUnit_named u) hv

/-- The default object of a class is total and well typed, whatever the texts of the defaults are
and whatever was promoted. -/
theorem defaultObject_instantiates (h : Laid u l) : Instantiates (Schema.ofUnit u).1 l
    (l.defaultObject (Schema.ofUnit u).1).1 (l.defaultObject (Schema.ofUnit u).1).2 := by
  have hpairs : (l.members.values.map fun m => (m.name, (slotValue (Schema.ofUnit u).1 m).1)).map
      Prod.fst = l.members.keys := by
    rw [List.map_map]
    exact OrderedMap.map_values fun _ _ hm => (h.slot hm).1
  have hnodup : ((l.members.values.map fun m => (m.name, (slotValue (Schema.ofUnit u).1 m).1)).map
      Prod.fst).Nodup := by
    rw [hpairs]
    exact l.members.nodup
  refine ⟨?_, fun {name m} hm => ⟨(h.slot hm).1, ?_⟩, ?_⟩
  · rw [← hpairs, OrderedMap.keys, defaultObject, OrderedMap.entries_ofList hnodup]
  · have hvalue := (slotValue_eq (Schema.ofUnit u).1 m).1
    refine ⟨_, (OrderedMap.get?_ofList _ hnodup _ _).mpr ?_, hvalue, h.fits hm hvalue⟩
    exact List.mem_map.mpr ⟨m, OrderedMap.mem_values.mpr ⟨name, hm⟩, by rw [(h.slot hm).1]⟩
  · simp only [defaultObject, (slotValue_eq _ _).2]
    induction l.members.values with
    | nil => rfl
    | cons m rest ih => cases hm : m.isRejected (Schema.ofUnit u).1 <;> simp [hm, ih]

/-- A class with members of several types, one of them a byte with a default that is no byte. -/
def cabinet : CompilationUnit :=
  { name := "Cabinet"
    components := [⟨"body", "Mesh"⟩]
    fields := [⟨"shown", ⟨.object "Mesh", .single⟩, some "body"⟩, ⟨"rows", ⟨.int, .array⟩, some "(1, 2)"⟩,
      ⟨"slots", ⟨.byte, .single⟩, some "256"⟩, ⟨"state", ⟨.enum "Door", .single⟩, none⟩] }

/-- Its layout with a promoted member, and another that would take the name of one that is there. -/
def cabinetLayout : ClassLayout :=
  (ofSchema cabinet (Schema.ofUnit cabinet).1).addPromoted
    [⟨"lock", ⟨.int, .array⟩, some "(7, x)"⟩, ⟨"slots", ⟨.bool, .single⟩, none⟩]

theorem cabinetLayout_instantiated : Laid cabinet cabinetLayout ∧
    cabinetLayout.members.keys = ["body", "shown", "rows", "slots", "state", "lock"] ∧
    (cabinetLayout.defaultObject (Schema.ofUnit cabinet).1).1.values.values.map DefaultValue.text =
      ["body", "body", "(1, 2)", "0", "Door::", "()"] ∧
    (cabinetLayout.defaultObject (Schema.ofUnit cabinet).1).2 =
      [.unparsableDefault "slots" "256" "byte", .unparsableDefault "lock" "(7, x)" "array<int>"] ∧
    Instantiates (Schema.ofUnit cabinet).1 cabinetLayout
      (cabinetLayout.defaultObject (Schema.ofUnit cabinet).1).1
      (cabinetLayout.defaultObject (Schema.ofUnit cabinet).1).2 := by
  have hlaid : Laid cabinet cabinetLayout := .addPromoted .declared _
  exact ⟨hlaid, by decide +kernel, by decide +kernel, by decide +kernel, defaultObject_instantiates hlaid⟩

end ClassLayout

end VisualScript
