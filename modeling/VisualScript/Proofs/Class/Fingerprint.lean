import VisualScript.Class.Fingerprint
import VisualScript.Proofs.Format.Declarations
import VisualScript.Proofs.Json.Nesting

namespace VisualScript

open Decoder

namespace Fingerprint

theorem toList_eq_data (b : ByteArray) : b.toList = b.data.toList := by
  have hloop (i : Nat) (done : List UInt8) : ByteArray.toList.loop b i done =
      done.reverse ++ b.data.toList.drop i := by
    fun_induction ByteArray.toList.loop b i done with
    | case1 i done h ih =>
        have hlt : i < b.data.toList.length := h
        have hget : b.get! i = b.data.toList[i] := getElem!_pos b.data i h
        rw [ih, List.drop_eq_getElem_cons hlt, hget, List.reverse_cons, List.append_assoc]
        rfl
    | case2 i done h =>
        have hle : b.data.toList.length ≤ i := Nat.le_of_not_lt h
        rw [List.drop_eq_nil_of_le hle, List.append_nil]
  rw [ByteArray.toList, hloop, List.reverse_nil, List.nil_append, List.drop_zero]

theorem utf8_append (s t : String) : utf8 (s ++ t) = utf8 s ++ utf8 t := by
  have hbytes : (s ++ t).toUTF8.data = s.toUTF8.data ++ t.toUTF8.data :=
    (congrArg ByteArray.data String.toByteArray_append).trans ByteArray.data_append
  rw [utf8, utf8, utf8, toList_eq_data, toList_eq_data, toList_eq_data, hbytes, Array.toList_append]

theorem utf8_inj {s t : String} (h : utf8 s = utf8 t) : s = t := by
  rw [utf8, utf8, toList_eq_data, toList_eq_data, Array.toList_inj] at h
  exact String.toByteArray_inj.mp (ByteArray.ext h)

theorem utf8_row (values : List Json) :
    utf8 (String.ofList (Json.row values)) = values.flatMap jsonBytes := by
  induction values with
  | nil => decide +kernel
  | cons j rest ih =>
      rw [Json.row, List.flatMap_cons, String.ofList_append, utf8_append, List.flatMap_cons, ← ih]
      rfl

end Fingerprint

namespace ClassLayout

def visible (l : ClassLayout) : List MemberSlot :=
  l.members.values.filter fun m => m.origin ≠ .persistentFrame

/-- Classes that are the same to other units. -/
structure SameSkeleton (l l' : ClassLayout) : Prop where
  name : l.name = l'.name
  parent : l.parent = l'.parent
  interfaces : l.interfaces = l'.interfaces
  members : (l.visible.map fun m => (m.name, m.type)) = l'.visible.map fun m => (m.name, m.type)
  functions : l.functions.values = l'.functions.values

end ClassLayout

namespace Fingerprint

def parts (l : ClassLayout) : List Json :=
  .list .str l.interfaces :: (l.visible.map memberJson ++ l.functions.values.map Signature.toJson)

theorem skeletonBytes_eq (l : ClassLayout) : skeletonBytes l =
    utf8 (String.ofList (l.name.toList ++ '\x00' ::
      ((l.parent.getD "").toList ++ Json.row (parts l)))) := by
  have hnul : utf8 (String.ofList ['\x00']) = [0] := by decide +kernel
  rw [String.ofList_append, utf8_append, String.ofList_toList, ← List.singleton_append,
    String.ofList_append, utf8_append, hnul,
    String.ofList_append, utf8_append, String.ofList_toList, utf8_row, parts, List.flatMap_cons,
    List.flatMap_append, List.flatMap_map,
    List.flatMap_map]
  simp only [skeletonBytes, ClassLayout.visible, List.append_assoc]

theorem nested_member (m : MemberSlot) : (memberJson m).Nested := by
  have htype : m.type.toJson.Plain := Restores.plain fun limit => m.type.restores limit
  exact .array (by simp [htype])

theorem nested_signature (s : Signature) : s.toJson.Nested := by
  have hplain : s.toJson.Plain := Restores.plain fun limit => s.restores limit
  cases hplain with
  | record h => exact .record h

theorem nested_parts (l : ClassLayout) : ∀ j ∈ parts l, j.Nested := by
  simp only [parts, List.forall_mem_cons, List.forall_mem_append, List.forall_mem_map]
  exact ⟨.array fun j hj => by
    obtain ⟨s, -, rfl⟩ := List.mem_map.mp hj
    exact .string s, fun m _ => nested_member m, fun s _ => nested_signature s⟩

theorem asRead_member (m : MemberSlot) :
    ∃ fields, (memberJson m).asRead = .array [.string m.name, .record fields] := ⟨_, rfl⟩

theorem asRead_signature (s : Signature) : ∃ fields, s.toJson.asRead = .record fields := ⟨_, rfl⟩

theorem asRead_interfaces (names : List String) :
    (Json.list .str names).asRead = .array (names.map .string) := Json.asRead_list ..

/-- Members and functions are told apart, as the ones are arrays and the others records. -/
theorem split_parts {members members' : List MemberSlot} {functions functions' : List Signature}
    (h : (members.map memberJson ++ functions.map Signature.toJson).map Json.asRead =
      (members'.map memberJson ++ functions'.map Signature.toJson).map Json.asRead) :
    (members.map memberJson).map Json.asRead = (members'.map memberJson).map Json.asRead ∧
      (functions.map Signature.toJson).map Json.asRead =
        (functions'.map Signature.toJson).map Json.asRead := by
  induction members generalizing members' with
  | nil =>
      cases members' with
      | nil => exact ⟨rfl, h⟩
      | cons m' members' =>
          obtain ⟨_, hm⟩ := asRead_member m'
          cases functions with
          | nil => cases h
          | cons s functions =>
              obtain ⟨_, hs⟩ := asRead_signature s
              simp [hm, hs] at h
  | cons m members ih =>
      obtain ⟨_, hm⟩ := asRead_member m
      cases members' with
      | nil =>
          cases functions' with
          | nil => cases h
          | cons s functions' =>
              obtain ⟨_, hs⟩ := asRead_signature s
              simp [hm, hs] at h
      | cons m' members' =>
          obtain ⟨hhead, hrest⟩ := List.cons.inj h
          obtain ⟨hmembers, hfunctions⟩ := ih hrest
          exact ⟨congrArg₂ List.cons hhead hmembers, hfunctions⟩

theorem parts_inj {l l' : ClassLayout} (h : (parts l).map Json.asRead = (parts l').map Json.asRead) :
    l.interfaces = l'.interfaces ∧
      ((l.visible.map fun m => (m.name, m.type)) = l'.visible.map fun m => (m.name, m.type)) ∧
      l.functions.values = l'.functions.values := by
  obtain ⟨hinterfaces, hrest⟩ := List.cons.inj h
  obtain ⟨hmembers, hfunctions⟩ := split_parts hrest
  have hnames (names : List String) (limit : Nat) :
    Restores limit (.list .string) (.list .str names) names :=
    .list_self fun s _ => .string s
  have hpair (p : String × PinType) (limit : Nat) :
      Restores limit (.pair .string PinType.ofJson) (.array [.str p.1, p.2.toJson]) p :=
        .pair (.string p.1) (p.2.restores _)
  have hsignature (s : Signature) (limit : Nat) := s.restores limit
  rw [List.map_map, List.map_map] at hmembers hfunctions
  refine ⟨Restores.injective hnames hinterfaces, List.map_injective_iff.mpr (Restores.injective hpair) ?_,
    List.map_injective_iff.mpr (Restores.injective hsignature) hfunctions⟩
  rw [List.map_map, List.map_map]
  exact hmembers

theorem not_parts_append {l l' : ClassLayout} {first last : List Json}
    (hl : parts l = first ++ last) (hfirst : first ≠ []) :
    last.map Json.asRead ≠ (parts l').map Json.asRead := by
  intro h
  obtain ⟨j, first, rfl⟩ := List.exists_cons_of_ne_nil hfirst
  obtain ⟨-, hrest⟩ := List.cons.inj hl
  cases last with
  | nil => cases h
  | cons k last =>
      obtain ⟨hk, -⟩ := List.cons.inj h
      have hmem : k ∈ l.visible.map memberJson ++ l.functions.values.map Signature.toJson := by
        simp [hrest]
      rw [asRead_interfaces] at hk
      rcases List.mem_append.mp hmem with hm | hm
      · obtain ⟨m, -, rfl⟩ := List.mem_map.mp hm
        obtain ⟨fields, hfields⟩ := asRead_member m
        have hitems := Json.array.inj (hfields.symm.trans hk)
        have hrecord : Json.record fields ∈ l'.interfaces.map Json.string := by simp [← hitems]
        obtain ⟨_, -, hs⟩ := List.mem_map.mp hrecord
        cases hs
      · obtain ⟨s, -, rfl⟩ := List.mem_map.mp hm
        obtain ⟨fields, hfields⟩ := asRead_signature s
        cases hfields.symm.trans hk

theorem eq_of_row {p p' : List Char} {l l' : ClassLayout}
    (h : p ++ Json.row (parts l) = p' ++ Json.row (parts l')) (hle : p.length ≤ p'.length) :
    p = p' ∧ (parts l).map Json.asRead = (parts l').map Json.asRead := by
  have hprefix : p <+: p' := List.prefix_of_prefix_length_le (h ▸ List.prefix_append p _)
    (List.prefix_append p' _) hle
  obtain ⟨x, rfl⟩ := hprefix
  rw [List.append_assoc, List.append_cancel_left_eq] at h
  obtain ⟨first, last, hparts, rfl⟩ := Json.exists_row_of_append (nested_parts l) (nested_parts l') h
  have hlast : Json.row last = Json.row (parts l') := by
    rw [hparts, Json.row, List.flatMap_append] at h
    exact List.append_cancel_left h
  have hread := Json.asRead_of_row
    (fun j hj => nested_parts l j (hparts ▸ List.mem_append_right first hj)) (nested_parts l') hlast
  by_cases hfirst : first = []
  · subst hfirst
    exact ⟨(List.append_nil p).symm, hparts ▸ hread⟩
  · exact absurd hread (not_parts_append hparts hfirst)

theorem parent_eq {parent parent' : Option String} (hparent : parent ≠ some "")
    (hparent' : parent' ≠ some "") (h : (parent.getD "").toList = (parent'.getD "").toList) :
    parent = parent' := by
  have h := String.toList_injective h
  cases parent with
  | none => cases parent' with
    | none => rfl
    | some s => exact absurd (congrArg some h.symm) hparent'
  | some s => cases parent' with
    | none => exact absurd (congrArg some h) hparent
    | some t => exact congrArg some h

theorem eq_of_append_cons {α : Type} {a : α} {x x' z z' : List α} (hx : a ∉ x) (hx' : a ∉ x')
    (h : x ++ a :: z = x' ++ a :: z') :
    x = x' ∧ z = z' := by
  rcases List.append_eq_append_iff.mp h with ⟨c, rfl, hc⟩ | ⟨c, rfl, hc⟩ <;> cases c with
  | nil => simp_all
  | cons b c => simp_all

/-- The hash of a class is that of bytes from which all can be told that other units see of it, as
long as the end of its name can be. -/
theorem skeletonBytes_eq_iff {l l' : ClassLayout} (hname : '\x00' ∉ l.name.toList)
    (hname' : '\x00' ∉ l'.name.toList) (hparent : l.parent ≠ some "")
    (hparent' : l'.parent ≠ some "") : skeletonBytes l = skeletonBytes l' ↔ l.SameSkeleton l' := by
  constructor
  · intro h
    rw [skeletonBytes_eq, skeletonBytes_eq] at h
    have h := String.ofList_injective (utf8_inj h)
    obtain ⟨hn, h⟩ := eq_of_append_cons hname hname' h
    have hboth : (l.parent.getD "").toList = (l'.parent.getD "").toList ∧
        (parts l).map Json.asRead = (parts l').map Json.asRead := by
      rcases Nat.le_total (l.parent.getD "").toList.length (l'.parent.getD "").toList.length with hle | hle
      · exact eq_of_row h hle
      · obtain ⟨hp, hparts⟩ := eq_of_row h.symm hle
        exact ⟨hp.symm, hparts.symm⟩
    obtain ⟨hinterfaces, hmembers, hfunctions⟩ := parts_inj hboth.2
    exact ⟨String.toList_injective hn, parent_eq hparent hparent' hboth.1, hinterfaces, hmembers,
      hfunctions⟩
  · intro h
    have hmembers : l.visible.map memberJson = l'.visible.map memberJson := by
      have hpairs :=
        congrArg (List.map fun p : String × PinType => Json.array [.str p.1, p.2.toJson]) h.members
      rwa [List.map_map, List.map_map] at hpairs
    rw [skeletonBytes_eq, skeletonBytes_eq, parts, parts, h.name, h.parent, h.interfaces,
      h.functions, hmembers]

def hatch : ClassLayout := { name := "hatch", parent := some "[]", interfaces := ["open"] }

/-- The same class with storage for an event, which other units do not see. -/
def latched : ClassLayout :=
  { hatch with members := .ofList [("frame", ⟨"frame", ⟨.bool, .single⟩, .persistentFrame, none⟩)] }

def flap : ClassLayout :=
  { name := "hatch", members := .ofList [("open", ⟨"open", ⟨.bool, .single⟩, .field, none⟩)] }

theorem hatch_told : (∀ l ∈ [hatch, latched, flap], '\x00' ∉ l.name.toList ∧ l.parent ≠ some "") ∧
    skeletonBytes hatch = skeletonBytes latched ∧ skeletonBytes hatch ≠ skeletonBytes flap := by
  have hall : ∀ l ∈ [hatch, latched, flap], '\x00' ∉ l.name.toList ∧ l.parent ≠ some "" := by decide
  obtain ⟨hn, hp⟩ := hall hatch (by simp)
  obtain ⟨hnl, hpl⟩ := hall latched (by simp)
  obtain ⟨hnf, hpf⟩ := hall flap (by simp)
  refine ⟨hall, (skeletonBytes_eq_iff hn hnl hp hpl).mpr ⟨rfl, rfl, rfl, rfl, rfl⟩, fun h => ?_⟩
  have hsame := (skeletonBytes_eq_iff hn hnf hp hpf).mp h
  cases hsame.parent

end Fingerprint

end VisualScript
