import VisualScript.Proofs.Signature.Flags
import VisualScript.Proofs.Signature.Override

namespace VisualScript

namespace Flags

def has (a : Flags) (i : Nat) : Bool := a.bits.toBitVec.getLsbD i

theorem ext_has {a b : Flags} (h : ∀ i, a.has i = b.has i) : a = b :=
  ext_bits (BitVec.eq_of_getLsbD_eq fun i _ => h i)

@[simp] theorem has_union (a b : Flags) (i : Nat) : (a.union b).has i = (a.has i || b.has i) := by
  simp [has, union]

@[simp] theorem has_inter (a b : Flags) (i : Nat) : (a.inter b).has i = (a.has i && b.has i) := by
  simp [has, inter]

@[simp] theorem has_empty (i : Nat) : has {} i = false := by
  simp [has]

theorem has_diff (a b : Flags) (i : Nat) : (a.diff b).has i = (a.has i && !b.has i) := by
  by_cases hi : i < 32
  · simp [has, diff, hi]
  · simp [has, diff, BitVec.getLsbD_of_ge _ i (Nat.le_of_not_lt hi)]

theorem has_apart {a b : Flags} (h : a.inter b = {}) (i : Nat) : (a.has i && b.has i) = false := by
  rw [← has_inter, h, has_empty]

theorem contains_iff {a b : Flags} : a.contains b = true ↔ ∀ i, b.has i = true → a.has i = true := by
  have hinter : a.contains b = true ↔ a.inter b = b := by
    rw [contains, decide_eq_true_iff, inter]
    exact ⟨congrArg mk, congrArg bits⟩
  rw [hinter]
  constructor
  · intro h i hi
    rw [← h, has_inter, Bool.and_eq_true] at hi
    exact hi.1
  · intro h
    refine ext_has fun i => ?_
    cases hi : b.has i <;> simp [hi, h i]

theorem isEmpty_iff {a : Flags} : a.isEmpty = true ↔ a = {} := by
  rw [isEmpty, decide_eq_true_iff]
  exact ⟨congrArg mk, congrArg bits⟩

end Flags

/-- The issue is about a parameter and not about flags. -/
def Issue.isParam : Issue → Bool
  | .parameterOrder .. | .parameterType .. | .unexpectedParameter .. => true
  | _ => false

namespace SignatureMatch

variable {declared parent : Signature}

theorem isParam_of_paramIssue? {function : String} {p : Param} {issue : Issue}
    (h : paramIssue? function declared p = some issue) :
    issue.isParam = true := by
  rw [paramIssue?] at h
  split at h
  · cases h
    rfl
  · cases (Option.ite_none_right_eq_some.mp h).2
    rfl

theorem isParam_of_mem_paramIssues {issue : Issue} (h : issue ∈ paramIssues declared parent) :
    issue.isParam = true := by
  rcases List.mem_append.mp h with h | h
  · obtain ⟨p, _, hp⟩ := List.mem_filterMap.mp h
    exact isParam_of_paramIssue? hp
  · obtain ⟨p, _, rfl⟩ := List.mem_map.mp h
    rfl

theorem isParam_of_mem_flagIssues {function owner : String} {a b : Flags} {issue : Issue}
    (h : issue ∈ flagIssues function owner a b) :
    issue.isParam = false := by
  rcases List.mem_append.mp h with h | h
  all_goals
    split at h
    · obtain rfl := List.mem_singleton.mp h
      rfl
    · cases h

theorem paramIssues_eq_nil_iff {owner : String} {mustOverride : Bool} : paramIssues declared parent = [] ↔
    ∀ issue ∈ (resolve declared (some (owner, parent)) mustOverride).issues, issue.isParam = false := by
  constructor
  · intro h issue hissue
    rcases List.mem_append.mp hissue with hissue | hissue
    · rw [h] at hissue
      cases hissue
    · exact isParam_of_mem_flagIssues hissue
  · intro h
    refine List.eq_nil_iff_forall_not_mem.mpr fun issue hissue => ?_
    have hparam := h issue (List.mem_append_left _ hissue)
    rw [isParam_of_mem_paramIssues hissue] at hparam
    cases hparam

theorem paramIssue?_eq_none_iff {function : String} {p : Param} :
    paramIssue? function declared p = none ↔ declared.param? p.name = some p := by
  rw [paramIssue?]
  cases h : declared.param? p.name with
  | none => simp
  | some actual =>
      have hname := (Signature.param?_mem h).2
      cases actual
      cases p
      simp only at hname
      simp [hname]

theorem reordered_eq (h : paramIssues declared parent = []) :
    reordered declared parent = parent.params := by
  have hnone := List.filterMap_eq_nil_iff.mp (List.append_eq_nil_iff.mp h).1
  rw [reordered]
  calc parent.params.filterMap (fun p => declared.param? p.name)
      = parent.params.filterMap some :=
        List.filterMap_congr fun p hp => paramIssue?_eq_none_iff.mp (hnone p hp)
    _ = parent.params := List.filterMap_some

theorem paramIssues_of_perm (hnames : parent.paramNames.Nodup)
    (hperm : declared.params.Perm parent.params) :
    paramIssues declared parent = [] := by
  have hdeclared : declared.paramNames.Nodup := (hperm.map Param.name).nodup_iff.mpr hnames
  refine List.append_eq_nil_iff.mpr ⟨List.filterMap_eq_nil_iff.mpr fun p hp => ?_,
    List.map_eq_nil_iff.mpr ?_⟩
  · exact paramIssue?_eq_none_iff.mpr (Signature.param?_of_nodup hdeclared (hperm.mem_iff.mpr hp))
  · refine List.filter_eq_nil_iff.mpr fun p hp => ?_
    rw [Signature.param?_of_nodup hnames (hperm.mem_iff.mp hp)]
    exact Bool.false_ne_true

theorem parentAccess_inter (parent : Flags) :
    (parentAccess parent).inter .accessMask = parentAccess parent := by
  rw [parentAccess]
  split
  · decide
  · refine Flags.ext_has fun i => ?_
    simp only [Flags.access, Flags.has_inter, Bool.and_assoc, Bool.and_self]

theorem access_mergedFlags (declared parent : Flags) :
    (mergedFlags declared parent).access = parentAccess parent := by
  refine Flags.ext_has fun i => ?_
  -- Nothing else that is taken over has access bits, and the declared ones are cleared first.
  have hnet := Flags.has_apart (by decide : Flags.netMask.inter .accessMask = {}) i
  have hkept := Flags.has_apart
    (by decide : (Flags.isPure.union (Flags.isConst.union .overridable)).inter .accessMask = {}) i
  have howned : ((parentAccess parent).has i && Flags.accessMask.has i) = (parentAccess parent).has i := by
    rw [← Flags.has_inter, parentAccess_inter]
  simp only [mergedFlags, Flags.access, Flags.net, Flags.has_union, Flags.has_inter, Flags.has_diff]
    at hkept ⊢
  grind

theorem net_mergedFlags (declared parent : Flags) : (mergedFlags declared parent).net = parent.net := by
  refine Flags.ext_has fun i => ?_
  have hkept := Flags.has_apart
    (by decide : (Flags.isPure.union (Flags.isConst.union .overridable)).inter .netMask = {}) i
  simp only [mergedFlags, Flags.net, Flags.has_union, Flags.has_inter, Flags.has_diff] at hkept ⊢
  grind

theorem contains_mergedFlags (declared : Flags) {parent f : Flags}
    (hf : f ∈ [Flags.isPure, .isConst, .overridable]) (h : parent.contains f = true) :
    (mergedFlags declared parent).contains f = true := by
  rw [Flags.contains_iff] at *
  intro i hi
  have hkept : (Flags.isPure.union (Flags.isConst.union .overridable)).has i = true := by
    simp only [List.mem_cons, List.not_mem_nil, or_false] at hf
    rcases hf with rfl | rfl | rfl <;> simp [hi]
  simp only [mergedFlags, Flags.has_union, Flags.has_inter] at hkept ⊢
  simp [h i hi, hkept]

/-- What a signature takes over from the one that it overrides. -/
structure Inherits (m : SignatureMatch) (declared : Signature) (owner : String)
    (parent : Signature) : Prop where
  overrideOf : m.overrideOf = some owner
  agreed : (∀ issue ∈ m.issues, issue.isParam = false) → m.signature.params = parent.params
  refused : (∃ issue ∈ m.issues, issue.isParam = true) → m.signature.params = declared.params
  access : m.signature.flags.access = if parent.flags.access = {} then .isPublic else parent.flags.access
  net : m.signature.flags.net = parent.flags.net
  kept : ∀ f ∈ [Flags.isPure, .isConst, .overridable], parent.flags.contains f = true →
    m.signature.flags.contains f = true

/-- A signature that overrides another has its parameters, or else its own ones and an issue with them,
and the flags of the other one as far as these are inherited. There is no issue with parameters that
only stand in another order. -/
theorem resolve_inherits (declared : Signature) (owner : String) (parent : Signature)
    (mustOverride : Bool) :
    (resolve declared (some (owner, parent)) mustOverride).Inherits declared owner parent ∧
      (parent.paramNames.Nodup → declared.params.Perm parent.params →
        ∀ issue ∈ (resolve declared (some (owner, parent)) mustOverride).issues,
        issue.isParam = false) := by
  refine ⟨⟨rfl, fun h => ?_, fun ⟨issue, hissue, hparam⟩ => ?_, ?_, net_mergedFlags _ _,
    fun f hf h => contains_mergedFlags _ hf h⟩,
    fun hnames hperm => paramIssues_eq_nil_iff.mp (paramIssues_of_perm hnames hperm)⟩
  · have hnone := paramIssues_eq_nil_iff.mpr h
    simp only [resolve, hnone, List.isEmpty_nil, if_true]
    exact reordered_eq hnone
  · have hsome : paramIssues declared parent ≠ [] := fun hnone => by
      rw [paramIssues_eq_nil_iff.mp hnone issue hissue] at hparam
      cases hparam
    simp only [resolve, List.isEmpty_iff, hsome, if_false]
  · refine (access_mergedFlags _ _).trans ?_
    simp only [parentAccess, Flags.isEmpty_iff]

def swingBack : Signature :=
  ⟨"swing", [⟨"by", ⟨.int, .single⟩, .input⟩, ⟨"to", ⟨.bool, .single⟩, .input⟩], .isPrivate⟩

def swing : Signature :=
  ⟨"swing", [⟨"to", ⟨.bool, .single⟩, .input⟩, ⟨"by", ⟨.int, .single⟩, .input⟩],
    Flags.isProtected.union .isPure⟩

theorem swingBack_inherits : swing.paramNames.Nodup ∧ swingBack.params.Perm swing.params ∧
    (resolve swingBack (some ("Gate", swing)) false).signature.params = swing.params ∧
    (resolve swingBack (some ("Gate", swing)) false).signature.flags =
      Flags.isProtected.union .isPure := by
  have hnames : swing.paramNames.Nodup := by decide
  have hperm : swingBack.params.Perm swing.params := .swap _ _ _
  obtain ⟨hinherits, hagreed⟩ := resolve_inherits swingBack "Gate" swing false
  exact ⟨hnames, hperm, hinherits.agreed (hagreed hnames hperm), by decide⟩

end SignatureMatch

end VisualScript
