import Mathlib.Data.List.Basic
import VisualScript.Json.Decoder
import VisualScript.Proofs.Json.Reading
import VisualScript.Proofs.OrderedMap

namespace VisualScript

namespace Json

mutual

def depth : Json → Nat
  | .array items => itemsDepth items + 1
  | .record fields => fieldsDepth fields + 1
  | .null => 0
  | .bool _ => 0
  | .number _ => 0
  | .string _ => 0
  | .broken => 0

def itemsDepth : List Json → Nat
  | [] => 0
  | j :: rest => max (depth j) (itemsDepth rest)

def fieldsDepth : Fields → Nat
  | [] => 0
  | (_, j) :: rest => max (depth j) (fieldsDepth rest)

end

theorem itemsDepth_le {items : List Json} {d : Nat} : itemsDepth items ≤ d ↔ ∀ j ∈ items, j.depth ≤ d := by
  induction items with
  | nil => simp [itemsDepth]
  | cons j rest ih => rw [itemsDepth, Nat.max_le, ih, List.forall_mem_cons]

theorem fieldsDepth_le {fields : Fields} {d : Nat} :
    fieldsDepth fields ≤ d ↔ ∀ f ∈ fields, f.2.depth ≤ d := by
  induction fields with
  | nil => simp [fieldsDepth]
  | cons f rest ih => rw [fieldsDepth, Nat.max_le, ih, List.forall_mem_cons]

theorem depth_list {α : Type} {enc : α → Json} {l : List α} {d : Nat} (h : (list enc l).depth < d) :
    1 < d ∧ ∀ a ∈ l, (enc a).depth < d - 1 := by
  rw [list, depth] at h
  have hitems : itemsDepth (l.map enc) ≤ d - 2 := by omega
  refine ⟨by omega, fun a ha => ?_⟩
  have ha := itemsDepth_le.mp hitems (enc a) (List.mem_map_of_mem ha)
  omega

theorem depth_object {fields : List (String × Json)} {d : Nat} (h : (object fields).depth < d) :
    1 < d ∧ ∀ f ∈ fields, f.2.depth < d - 1 := by
  rw [object, depth] at h
  have hfields : fieldsDepth (fields.map fun f => (⟨f.1, false⟩, f.2)) ≤ d - 2 := by omega
  refine ⟨by omega, fun f hf => ?_⟩
  have hf : f.2.depth ≤ d - 2 := fieldsDepth_le.mp hfields _ (List.mem_map_of_mem hf)
  omega

theorem Plain.list {α : Type} {enc : α → Json} {l : List α} (h : ∀ a ∈ l, (enc a).Plain) :
    (list enc l).Plain :=
  .array fun j hj => by
    obtain ⟨a, ha, rfl⟩ := List.mem_map.mp hj
    exact h a ha

theorem Plain.object {fields : List (String × Json)} (h : ∀ f ∈ fields, f.2.Plain) :
    (object fields).Plain :=
  .record fun j hj => by
    obtain ⟨f, hf, rfl⟩ := List.mem_map.mp hj
    exact h f hf

theorem asRead_list {α : Type} (enc : α → Json) (l : List α) :
    (list enc l).asRead = list (fun a => (enc a).asRead) l := by
  rw [list, asRead, asReadItems_eq_map, List.map_map, list]
  rfl

theorem asRead_object (fields : List (String × Json)) :
    (object fields).asRead = .record (fields.map fun f => (⟨f.1, needsEscape f.1⟩, f.2.asRead)) := by
  rw [object, asRead, asReadFields_eq_map, List.map_map]
  rfl

end Json

/-- A decoder makes `a` of a value, once that was written and read, as long as the value does not nest
deeper than is allowed. Only allowances up to `limit` count. -/
def Decoder.Restores {α : Type} (limit : Nat) (decode : Decoder α) (j : Json) (a : α) : Prop :=
  ∀ d ≤ limit, j.depth < d → j.Plain ∧ decode d j.asRead = .ok a

namespace Decoder

variable {α β : Type} {limit d : Nat} {decode : Decoder α} {encode : α → Json} {a : α} {j : Json}

theorem enter_eq (h : 1 < d) : enter d = .ok (d - 1) := by
  rw [enter, if_neg (by omega)]

@[simp] theorem plain_str (s : String) : (Json.str s).Plain := .string s

@[simp] theorem string_str (d : Nat) (s : String) : Decoder.string d (Json.str s).asRead = .ok s := rfl

@[simp] theorem plain_bool (b : Bool) : (Json.bool b).Plain := .bool b

theorem Restores.mono {limit' : Nat} (h : Restores limit decode j a) (hle : limit' ≤ limit) :
    Restores limit' decode j a :=
  fun d hd hdepth => h d (Nat.le_trans hd hle) hdepth

theorem Restores.injective (h : ∀ a limit, Restores limit decode (encode a) a) :
    Function.Injective (Json.asRead ∘ encode) := by
  intro a b hab
  have hda : (encode a).depth < max (encode a).depth (encode b).depth + 1 := by omega
  have hdb : (encode b).depth < max (encode a).depth (encode b).depth + 1 := by omega
  obtain ⟨-, hra⟩ := h a _ _ (Nat.le_refl _) hda
  obtain ⟨-, hrb⟩ := h b _ _ (Nat.le_refl _) hdb
  have hab : (encode a).asRead = (encode b).asRead := hab
  rw [hab, hrb] at hra
  exact (Except.ok.inj hra).symm

theorem Restores.plain (h : ∀ limit, Restores limit decode j a) : j.Plain :=
  (h (j.depth + 1) (j.depth + 1) (Nat.le_refl _) (Nat.lt_succ_self _)).1

theorem Restores.string (s : String) :
    Restores limit .string (.str s) s := fun d _ _ => ⟨plain_str s, string_str d s⟩

theorem Restores.integer (lo hi : Int) {n : Int} (h : lo ≤ n ∧ n ≤ hi) :
    Restores limit (.integer lo hi) (.int n) n :=
  fun _ _ _ => ⟨.integer n, if_pos h⟩

theorem Restores.map (h : Restores limit decode j a) (f : α → β) :
    Restores limit (.map f decode) j (f a) := by
  intro d hd hdepth
  obtain ⟨hplain, hdecode⟩ := h d hd hdepth
  exact ⟨hplain, by rw [Decoder.map, hdecode]; rfl⟩

theorem Restores.word32 {n : Nat} (h : n < 4294967296) : Restores limit .word32 (.nat n) n :=
  (Restores.integer 0 4294967295 (by omega)).map Int.toNat

theorem Restores.word16 (n : UInt16) : Restores limit .word16 (.nat n.toNat) n := by
  have hn := n.toNat_lt
  have hint : Restores limit (.integer 0 65535) (.nat n.toNat) n.toNat := .integer 0 65535 (by omega)
  have hmap := hint.map fun n => UInt16.ofNat n.toNat
  rwa [Int.toNat_natCast, UInt16.ofNat_toNat] at hmap

theorem Restores.null (decode : Decoder α) :
    Restores limit (.option decode) .null none := fun _ _ _ => ⟨.null, rfl⟩

theorem Restores.some (h : Restores limit decode j a) (hj : j ≠ .null) :
    Restores limit (.option decode) j (some a) := by
  intro d hd hdepth
  obtain ⟨hplain, hdecode⟩ := h d hd hdepth
  have hread : j.asRead ≠ .null := by cases j <;> simp_all [Json.asRead]
  have hoption : Decoder.option decode d j.asRead = (decode d j.asRead).map Option.some := by
    unfold Decoder.option
    split
    · next he => exact absurd he hread
    · rfl
  exact ⟨hplain, by rw [hoption, hdecode]; rfl⟩

theorem Restores.option (o : Option α)
    (h : ∀ a ∈ o, Restores limit decode (encode a) a ∧ encode a ≠ .null) :
    Restores limit (.option decode) (.option encode o) o := by
  cases o with
  | none => exact .null decode
  | some a => exact (h a rfl).1.some (h a rfl).2

theorem restores_text (limit : Nat) (o : Option String) :
    Restores limit (.option .string) (.option .str o) o :=
  .option o fun s _ => ⟨.string s, by simp [Json.str]⟩

theorem Restores.list {decode : Decoder β} {f : α → β} {l : List α}
    (h : ∀ a ∈ l, Restores (limit - 1) decode (encode a) (f a)) :
    Restores limit (.list decode) (.list encode l) (l.map f) := by
  intro d hd hdepth
  obtain ⟨henter, hitems⟩ := Json.depth_list hdepth
  have hitem (a : α) (ha : a ∈ l) := h a ha (d - 1) (by omega) (hitems a ha)
  refine ⟨.list fun a ha => (hitem a ha).1, ?_⟩
  rw [Json.asRead_list, Json.list, Decoder.list, enter_eq henter]
  exact (List.mapM_map ..).trans (mapM_eq_pure_map fun a ha => (hitem a ha).2)

theorem Restores.list_self {l : List α} (h : ∀ a ∈ l, Restores (limit - 1) decode (encode a) a) :
    Restores limit (.list decode) (.list encode l) l := by
  have hlist := Restores.list (f := id) h
  rwa [List.map_id] at hlist

theorem tuple_array {items : List Json} (h : (Json.array items).depth < d) :
    (∀ j ∈ items, j.depth < d - 1) ∧ tuple items.length d (Json.array items).asRead =
      .ok (d - 1, items.map Json.asRead) := by
  have hlist : Json.array items = Json.list id items := by rw [Json.list, List.map_id]
  obtain ⟨henter, hitems⟩ := Json.depth_list (hlist ▸ h)
  refine ⟨hitems, ?_⟩
  rw [Json.asRead, Json.asReadItems_eq_map, tuple, enter_eq henter]
  exact if_pos (List.length_map _)

theorem Restores.pair {first : Decoder α} {second : Decoder β} {j k : Json} {b : β}
    (hj : Restores (limit - 1) first j a) (hk : Restores (limit - 1) second k b) :
    Restores limit (.pair first second) (.array [j, k]) (a, b) := by
  intro d hd hdepth
  obtain ⟨hitems, htuple⟩ := tuple_array hdepth
  simp only [List.forall_mem_cons] at hitems
  obtain ⟨hjplain, hfirst⟩ := hj (d - 1) (by omega) hitems.1
  obtain ⟨hkplain, hsecond⟩ := hk (d - 1) (by omega) hitems.2.1
  refine ⟨.array (by simp [hjplain, hkplain]), ?_⟩
  rw [List.length_cons, List.length_singleton] at htuple
  simp [Decoder.pair, htuple, hfirst, hsecond, bind, Except.bind, pure, Except.pure]

end Decoder

namespace Record

theorem repeated?_of_nodup {names : List String} (h : names.Nodup) : repeated? names = none := by
  induction names with
  | nil => rfl
  | cons name rest ih =>
      obtain ⟨hname, hrest⟩ := List.nodup_cons.mp h
      rw [repeated?, if_neg hname, ih hrest]

theorem decode_object {fields : List (String × Json)} {d : Nat} (names : List String)
    (hnames : fields.map Prod.fst = names) (hnodup : names.Nodup) (h : 1 < d) :
    decode names d (Json.object fields).asRead =
      .ok ⟨false, d - 1, fields.map fun f => (f.1, f.2.asRead)⟩ := by
  have hknown : ((fields.map fun f => ((⟨f.1, Json.needsEscape f.1⟩, f.2.asRead) :
      JsonName × Json)).map fun f => (f.1.text, f.2)) =
      fields.map fun f => (f.1, f.2.asRead) := by
    rw [List.map_map]
    rfl
  have hall : (fields.map fun f => (f.1, f.2.asRead)).filter (fun f => f.1 ∈ names) =
      fields.map fun f => (f.1, f.2.asRead) := by
    rw [List.filter_eq_self, List.forall_mem_map, ← hnames]
    exact fun f hf => decide_eq_true (List.mem_map.mpr ⟨f, hf, rfl⟩)
  have hkeys : (fields.map fun f => (f.1, f.2.asRead)).map Prod.fst = names := by
    rw [List.map_map, ← hnames]; rfl
  simp only [Json.asRead_object, decode, Decoder.enter_eq h, hknown, hall, hkeys,
    repeated?_of_nodup hnodup, bind, Except.bind]

theorem restores {α : Type} {limit : Nat} {fields : List (String × Json)} {a : α} (names : List String)
    (make : Record → Except DecodeError α) (hnames : fields.map Prod.fst = names) (hnodup : names.Nodup)
    (h : ∀ d ≤ limit - 1, fields.Forall (fun f => f.2.depth < d) →
      (∀ f ∈ fields, f.2.Plain) ∧ make ⟨false, d, fields.map fun f => (f.1, f.2.asRead)⟩ = .ok a) :
    Decoder.Restores limit (fun d j => decode names d j >>= make) (.object fields) a := by
  intro d hd hdepth
  obtain ⟨henter, hfields⟩ := Json.depth_object hdepth
  obtain ⟨hplain, hmake⟩ := h (d - 1) (by omega) (List.forall_iff_forall_mem.mpr hfields)
  refine ⟨.object hplain, ?_⟩
  beta_reduce
  rw [decode_object names hnames hnodup henter]
  exact hmake

theorem restores_one {α : Type} {limit : Nat} {read : Decoder α} {j : Json} {a : α} (name : String)
    (h : Decoder.Restores (limit - 1) read j a) :
    Decoder.Restores limit (fun d j => decode [name] d j >>= fun r => r.get name read)
      (.object [(name, j)]) a := by
  refine restores [name] _ rfl (List.nodup_singleton name) fun d hd hfields => ?_
  obtain ⟨hplain, hread⟩ := h d hd hfields
  refine ⟨List.forall_mem_singleton.mpr hplain, ?_⟩
  simp [get, find?, hread]

end Record

namespace Case

variable {α : Type} {limit d : Nat} {make : Case → Except DecodeError α} {tag : String}

theorem restores_str {a : α} (h : ∀ d, make ⟨tag, d, none⟩ = .ok a) :
    Decoder.Restores limit (fun d j => decode d j >>= make) (.str tag) a :=
  fun d _ _ => ⟨.string tag, h d⟩

theorem restores_oneOf {cases : List (String × α)} {a : α}
    (h : cases.find? (fun p => p.1 = tag) = some (tag, a)) :
    Decoder.Restores limit (oneOf cases) (.str tag) a :=
  restores_str fun d => by simp [h, plain]

theorem restores_tagged {payload : Json} {a : α}
    (h : ∀ d ≤ limit - 1, payload.depth < d → payload.Plain ∧ make ⟨tag, d, some payload.asRead⟩ = .ok a) :
    Decoder.Restores limit (fun d j => decode d j >>= make) (.tagged tag payload) a := by
  intro d hd hdepth
  obtain ⟨henter, hfields⟩ := Json.depth_object hdepth
  obtain ⟨hplain, hmake⟩ := h (d - 1) (by omega) (hfields _ List.mem_cons_self)
  have hdecode : decode d (Json.tagged tag payload).asRead = .ok ⟨tag, d - 1, some payload.asRead⟩ := by
    rw [Json.tagged, Json.asRead_object, List.map_singleton, decode, Decoder.enter_eq henter]
    rfl
  refine ⟨.object (List.forall_mem_singleton.mpr hplain), ?_⟩
  beta_reduce
  rw [hdecode]
  exact hmake

theorem restores_payload {β : Type} {payload : Json}
    {read : Decoder β} {b : β} (f : β → α) (h : Decoder.Restores (limit - 1) read payload b)
    (hmake : ∀ d j, make ⟨tag, d, some j⟩ = read d j >>= fun b => pure (f b)) :
    Decoder.Restores limit (fun d j => decode d j >>= make) (.tagged tag payload) (f b) := by
  refine restores_tagged fun d hd hdepth => ?_
  obtain ⟨hplain, hread⟩ := h d hd hdepth
  exact ⟨hplain, by rw [hmake, hread]; rfl⟩

end Case

theorem Decoder.Restores.orderedMap {α β : Type} {limit : Nat} {decode : Decoder β}
    {encode : α → Json} {f : α → β} (m : OrderedMap String α)
    (h : ∀ p ∈ m.entries, Restores (limit - 1) decode (encode p.2) (f p.2)) :
    Restores limit (.orderedMap Decoder.key? decode)
      (.object (m.entries.map fun p => (p.1, encode p.2))) (m.mapValues f) := by
  intro d hd hdepth
  obtain ⟨henter, hfields⟩ := Json.depth_object hdepth
  have hentry (p : String × α) (hp : p ∈ m.entries) :=
    h p hp (d - 1) (by omega) (hfields _ (List.mem_map_of_mem hp))
  have hmap : OrderedMap.ofList (m.mapValues f).entries = m.mapValues f := by
    have hentries := OrderedMap.entries_ofList (m.mapValues f).nodup
    cases hm : OrderedMap.ofList (m.mapValues f).entries
    cases hf : m.mapValues f
    simp_all
  refine ⟨.object (List.forall_mem_map.mpr fun p hp => (hentry p hp).1), ?_⟩
  rw [Json.asRead_object, List.map_map, Decoder.orderedMap, enter_eq henter]
  simp only [bind, Except.bind]
  rw [List.mapM_map, mapM_eq_pure_map (g := fun p => (p.1, f p.2)) fun p hp => ?_]
  · exact congrArg Except.ok hmap
  · simp [key?, (hentry p hp).2, pure, Except.pure]

end VisualScript
