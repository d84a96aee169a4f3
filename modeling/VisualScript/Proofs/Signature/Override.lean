import VisualScript.Signature.Override
import Mathlib.Data.List.Nodup
import Mathlib.Data.List.Perm.Basic

namespace VisualScript

def Param.key (p : Param) : ParamDirection × String := (p.direction, p.name)

namespace Signature

variable {s : Signature} {p : Param} {name : String}

theorem param?_mem (h : s.param? name = some p) : p ∈ s.params ∧ p.name = name := by
  refine ⟨List.mem_of_find?_eq_some h, ?_⟩
  simpa using List.find?_some h

theorem isSome_param? : (s.param? name).isSome = true ↔ name ∈ s.paramNames := by
  simp [param?, paramNames]

theorem param?_of_nodup (h : s.paramNames.Nodup) (hp : p ∈ s.params) : s.param? p.name = some p := by
  obtain ⟨q, hq⟩ :=
    Option.isSome_iff_exists.mp (isSome_param?.mpr (List.mem_map_of_mem hp : p.name ∈ s.paramNames))
  obtain ⟨hmem, hname⟩ := param?_mem hq
  rw [hq, List.inj_on_of_nodup_map h hmem hp hname]

end Signature

namespace SignatureMatch

variable {declared parent : Signature}

theorem mem_reordered {p : Param} :
    p ∈ reordered declared parent ↔ p.name ∈ parent.paramNames ∧ declared.param? p.name = some p := by
  rw [reordered, List.mem_filterMap]
  constructor
  · rintro ⟨q, hq, hp⟩
    have hname := (Signature.param?_mem hp).2
    rw [hname]
    exact ⟨List.mem_map_of_mem hq, hp⟩
  · rintro ⟨hname, hp⟩
    obtain ⟨q, hq, he⟩ := List.mem_map.mp hname
    exact ⟨q, hq, he ▸ hp⟩

theorem mem_paramNames_of_paramIssues (h : paramIssues declared parent = []) {p : Param}
    (hp : p ∈ declared.params) :
    p.name ∈ parent.paramNames := by
  obtain ⟨_, hother⟩ := List.append_eq_nil_iff.mp h
  refine Signature.isSome_param?.mp (Option.isSome_iff_ne_none.mpr fun hnone => ?_)
  have hmem : p ∈ declared.params.filter fun p => (parent.param? p.name).isNone :=
    List.mem_filter.mpr ⟨hp, by rw [hnone]; rfl⟩
  rw [List.map_eq_nil_iff.mp hother] at hmem
  cases hmem

theorem reordered_perm_iff (h : paramIssues declared parent = []) :
    (reordered declared parent).Perm declared.params ∧ (declared.params.map Param.key).Nodup ↔
      declared.paramNames.Nodup ∧ ((reordered declared parent).map Param.name).Nodup := by
  have hkey {l : List Param} (hnames : (l.map Param.name).Nodup) : (l.map Param.key).Nodup := by
    refine List.Nodup.of_map Prod.snd ?_
    rwa [List.map_map]
  constructor
  · rintro ⟨hperm, hkeys⟩
    have hnames : declared.paramNames.Nodup := by
      refine List.Nodup.map_on (fun p hp q hq hpq => ?_) hkeys.of_map
      have hfound := (mem_reordered.mp (hperm.mem_iff.mpr hp)).2
      rw [hpq, (mem_reordered.mp (hperm.mem_iff.mpr hq)).2] at hfound
      exact (Option.some.inj hfound).symm
    exact ⟨hnames, (hperm.map Param.name).nodup_iff.mpr hnames⟩
  · rintro ⟨hnames, hreordered⟩
    refine ⟨(List.perm_ext_iff_of_nodup hreordered.of_map hnames.of_map).mpr
      fun p => ⟨fun hp => ?_, fun hp => ?_⟩, hkey hnames⟩
    · exact (Signature.param?_mem (mem_reordered.mp hp).2).1
    · exact mem_reordered.mpr ⟨mem_paramNames_of_paramIssues h hp, Signature.param?_of_nodup hnames hp⟩

/-- A signature without errors is the declared one, or that in the order of the signature it overrides. -/
theorem resolve_cases {inherited : Option (String × Signature)} {mustOverride : Bool}
    (h : (resolve declared inherited mustOverride).hasErrors = false) :
    ((resolve declared inherited mustOverride).overrideOf = none ∧
      (resolve declared inherited mustOverride).signature.params = declared.params) ∨
    ∃ parent, (resolve declared inherited mustOverride).overrideOf ≠ none ∧
      paramIssues declared parent = [] ∧
      (resolve declared inherited mustOverride).signature.params = reordered declared parent := by
  rcases inherited with _ | ⟨owner, parent⟩
  · exact Or.inl ⟨rfl, rfl⟩
  · have hissues : paramIssues declared parent = [] := by
      refine List.eq_nil_iff_forall_not_mem.mpr fun issue hissue => ?_
      have hnoerror := List.any_eq_false.mp h issue (List.mem_append_left _ hissue)
      rcases List.mem_append.mp hissue with hissue | hissue
      · obtain ⟨p, _, hp⟩ := List.mem_filterMap.mp hissue
        rw [paramIssue?] at hp
        split at hp
        · cases hp
          exact hnoerror rfl
        · cases (Option.ite_none_right_eq_some.mp hp).2
          exact hnoerror rfl
      · obtain ⟨p, _, rfl⟩ := List.mem_map.mp hissue
        exact hnoerror rfl
    refine Or.inr ⟨parent, Option.some_ne_none owner, hissues, ?_⟩
    simp [resolve, hissues]

end SignatureMatch

end VisualScript
