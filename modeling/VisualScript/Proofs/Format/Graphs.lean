import Mathlib.Data.List.ReduceOption
import VisualScript.Proofs.Format.Declarations
import VisualScript.Proofs.Graph.Representation

namespace VisualScript

open Decoder

namespace Graph

section Slots

variable {α : Type}

/-- The vacant places of a row that starts at `place`. -/
def vacancies (place : Nat) (slots : List (Option α)) : List Nat :=
  (slots.zipIdx place).filterMap fun s => if s.1.isNone then some s.2 else none

theorem vacancies_none (place : Nat) (slots : List (Option α)) :
    vacancies place (none :: slots) = place :: vacancies (place + 1) slots := by
  simp [vacancies]

theorem vacancies_some (place : Nat) (a : α) (slots : List (Option α)) :
    vacancies place (some a :: slots) = vacancies (place + 1) slots := by
  simp [vacancies]

theorem vacancies_map {β : Type} (f : α → β) (place : Nat) (slots : List (Option α)) :
    vacancies place (slots.map (Option.map f)) = vacancies place slots := by
  induction slots generalizing place with
  | nil => rfl
  | cons s slots ih =>
      cases s with
      | none => rw [List.map_cons, Option.map_none, vacancies_none, ih, vacancies_none]
      | some a => rw [List.map_cons, Option.map_some, vacancies_some, ih, vacancies_some]

theorem mem_vacancies {place i : Nat} {slots : List (Option α)} :
    i ∈ vacancies place slots ↔ place ≤ i ∧ slots[i - place]? = some none := by
  simp only [vacancies, List.mem_filterMap, Prod.exists, List.mem_zipIdx_iff_le_and_getElem?_sub]
  constructor
  · rintro ⟨s, j, ⟨hle, hs⟩, hj⟩
    cases s with
    | none =>
        obtain rfl : j = i := by simpa using hj
        exact ⟨hle, hs⟩
    | some a => simp at hj
  · rintro ⟨hle, hs⟩
    exact ⟨none, i, ⟨hle, hs⟩, rfl⟩

theorem interleave_vacancies (place : Nat) (slots : List (Option α)) :
    interleave slots.length place (vacancies place slots) slots.reduceOption = slots := by
  induction slots generalizing place with
  | nil => rfl
  | cons s slots ih =>
      cases s with
      | none => simp [vacancies_none, interleave, ih]
      | some a =>
          have hafter : ∀ i ∈ vacancies (place + 1) slots, i ≠ place := fun i hi he => by
            have hle := (mem_vacancies.mp hi).1
            omega
          have hrest := ih (place + 1)
          rw [vacancies_some, List.length_cons, List.reduceOption_cons_of_some]
          cases hv : vacancies (place + 1) slots with
          | nil =>
              rw [hv] at hrest
              rw [interleave, hrest]
          | cons i rest =>
              rw [hv] at hrest hafter
              rw [interleave, if_neg (hafter i List.mem_cons_self), hrest]

theorem checkHoles_vacancies {total place next : Nat} {slots : List (Option α)} (hplace : place ≤ next)
    (htotal : next + slots.length ≤ total) :
    checkHoles total place (next - place + slots.reduceOption.length) (vacancies next slots) = .ok () := by
  induction slots generalizing place next with
  | nil => rfl
  | cons s slots ih =>
      rw [List.length_cons] at htotal
      cases s with
      | none =>
          have hrest := ih (Nat.le_refl (next + 1)) (by omega)
          have hinside : ¬ (next < place ∨ total ≤ next) := by omega
          rw [vacancies_none, checkHoles, if_neg hinside, List.reduceOption_cons_of_none,
            if_neg (by omega), Nat.add_sub_cancel_left]
          rwa [Nat.sub_self, Nat.zero_add] at hrest
      | some a =>
          have hrest := ih (Nat.le_succ_of_le hplace) (by omega)
          rw [vacancies_some, List.reduceOption_cons_of_some, List.length_cons]
          have hcount : next - place + (slots.reduceOption.length + 1) =
              next + 1 - place + slots.reduceOption.length := by omega
          rwa [hcount]

theorem length_vacancies (place : Nat) (slots : List (Option α)) :
    slots.reduceOption.length + (vacancies place slots).length = slots.length := by
  induction slots generalizing place with
  | nil => rfl
  | cons s slots ih =>
      have hrest := ih (place + 1)
      cases s with
      | none =>
          rw [vacancies_none, List.reduceOption_cons_of_none, List.length_cons, List.length_cons]
          omega
      | some a =>
          rw [vacancies_some, List.reduceOption_cons_of_some, List.length_cons, List.length_cons]
          omega

theorem exists_replicate_none (slots : List (Option α)) :
    ∃ n, slots = (slots.reverse.dropWhile Option.isNone).reverse ++ List.replicate n none := by
  refine ⟨(slots.reverse.takeWhile Option.isNone).length, ?_⟩
  have hnone : slots.reverse.takeWhile Option.isNone =
    List.replicate (slots.reverse.takeWhile Option.isNone).length none :=
    List.eq_replicate_of_mem fun s hs => Option.isNone_iff_eq_none.mp (List.mem_takeWhile_imp hs)
  have hsplit := congrArg List.reverse
    (List.takeWhile_append_dropWhile (p := Option.isNone) (l := slots.reverse))
  rw [List.reverse_append, List.reverse_reverse, hnone, List.reverse_replicate] at hsplit
  exact hsplit.symm

end Slots

variable {κ : Type} (f : κ → κ) (g : Graph κ)

def arena : Arena κ := ⟨g.slots.reduceOption.map fun n => { n with kind := f n.kind }, g.holes, g.linkRow⟩

def saved : Graph κ := (g.arena f).toGraph g.name g.nextOrder

theorem exists_slots_eq :
    ∃ n, g.slots = g.usedSlots ++ List.replicate n none := exists_replicate_none g.slots

theorem reduceOption_usedSlots : g.usedSlots.reduceOption = g.slots.reduceOption := by
  obtain ⟨n, hn⟩ := g.exists_slots_eq
  rw [hn, List.reduceOption_append, List.reduceOption_replicate_none, List.append_nil]

theorem saved_slots :
    (g.saved f).slots = g.usedSlots.map (Option.map fun n => { n with kind := f n.kind }) := by
  have hholes : g.holes =
    vacancies 0 (g.usedSlots.map (Option.map fun n => ({ n with kind := f n.kind } : Node κ))) :=
    (vacancies_map ..).symm
  have hnodes : (g.slots.reduceOption.map fun n => { n with kind := f n.kind }) =
      (g.usedSlots.map (Option.map fun n => ({ n with kind := f n.kind } : Node κ))).reduceOption := by
    rw [List.reduceOption_map, reduceOption_usedSlots]
  rw [saved, arena, Arena.toGraph, Arena.slots, Arena.size, hnodes, hholes, length_vacancies,
    interleave_vacancies]

theorem node?_saved (id : NodeId) :
    (g.saved f).node? id = (g.node? id).map fun n => { n with kind := f n.kind } := by
  obtain ⟨n, hn⟩ := g.exists_slots_eq
  rw [node?, saved_slots, node?, List.getElem?_map, hn]
  by_cases hid : id < g.usedSlots.length
  · rw [List.getElem?_append_left hid]
    cases g.usedSlots[id]? with
    | none => rfl
    | some s => cases s <;> rfl
  · have hused : g.usedSlots[id]? = none := List.getElem?_eq_none (Nat.le_of_not_lt hid)
    rw [hused, List.getElem?_append_right (Nat.le_of_not_lt hid), List.getElem?_replicate]
    split <;> rfl

theorem port?_saved (p : PortRef) : (g.saved f).port? p = g.port? p := by
  rw [port?, port?, node?_saved]
  cases g.node? p.node <;> rfl

variable {f g}

theorem id_of_link? {id : LinkId} {l : Link} (h : g.link? id = some l) : l.id = id := by
  simpa using List.find?_some h

theorem link?_eq_some (h : (g.links.map Link.id).Nodup) {id : LinkId} {l : Link} :
    g.link? id = some l ↔ l ∈ g.links ∧ l.id = id := by
  constructor
  · exact fun hl => ⟨List.mem_of_find?_eq_some hl, id_of_link? hl⟩
  · rintro ⟨hl, rfl⟩
    obtain ⟨l', hl'⟩ := Option.isSome_iff_exists.mp (List.find?_isSome.mpr ⟨l, hl, decide_eq_true rfl⟩ :
      (g.links.find? fun k => k.id = l.id).isSome = true)
    have he := List.inj_on_of_nodup_map h (List.mem_of_find?_eq_some hl') hl
      (by simpa using List.find?_some hl')
    exact he ▸ hl'

theorem saved_links : (g.saved f).links =
    ((List.range ((g.links.map fun l => l.id + 1).foldl max 0)).filterMap g.link?).reverse := by
  have hrow : g.linkRow = (List.range ((g.links.map fun l => l.id + 1).foldl max 0)).map g.link? := rfl
  rw [saved, arena, Arena.toGraph, Arena.links, hrow, List.filterMap_map]
  rfl

theorem le_foldl_max (l : List Nat) (start : Nat) :
    start ≤ l.foldl max start ∧ ∀ n ∈ l, n ≤ l.foldl max start := by
  induction l generalizing start with
  | nil => simp
  | cons m l ih =>
      obtain ⟨hstart, hrest⟩ := ih (max start m)
      rw [List.foldl_cons, List.forall_mem_cons]
      exact ⟨by omega, by omega, hrest⟩

theorem nodup_saved_links : ((g.saved f).links.map Link.id).Nodup := by
  have hids (ids : List LinkId) : (ids.filterMap g.link?).map Link.id =
      ids.filter fun id => (g.link? id).isSome := by
    induction ids with
    | nil => rfl
    | cons id ids ih =>
        cases hl : g.link? id with
        | none => rw [List.filterMap_cons_none hl, List.filter_cons_of_neg (by simp [hl]), ih]
        | some l =>
            rw [List.filterMap_cons_some hl, List.filter_cons_of_pos (by simp [hl]), List.map_cons,
              ih, id_of_link? hl]
  rw [saved_links, List.map_reverse, hids, List.nodup_reverse]
  exact List.nodup_range.filter _

theorem Tidy.nodup_ids (h : g.Tidy) : (g.links.map Link.id).Nodup := (List.nodup_append.mp h.ids_nodup).1

theorem Tidy.mem_saved_links (h : g.Tidy) {l : Link} : l ∈ (g.saved f).links ↔ l ∈ g.links := by
  rw [saved_links, List.mem_reverse, List.mem_filterMap]
  constructor
  · rintro ⟨id, -, hl⟩
    exact List.mem_of_find?_eq_some hl
  · intro hl
    have hlt : l.id + 1 ≤ (g.links.map fun l => l.id + 1).foldl max 0 :=
      (le_foldl_max _ 0).2 _ (List.mem_map.mpr ⟨l, hl, rfl⟩)
    exact ⟨l.id, List.mem_range.mpr hlt, (link?_eq_some h.nodup_ids).mpr ⟨hl, rfl⟩⟩

theorem Tidy.saved_links_perm (h : g.Tidy) : (g.saved f).links.Perm g.links :=
  (List.perm_ext_iff_of_nodup (nodup_saved_links.of_map _) (h.nodup_ids.of_map _)).mpr fun _ =>
    h.mem_saved_links

theorem Tidy.link?_saved (h : g.Tidy) (id : LinkId) : (g.saved f).link? id = g.link? id := by
  ext l
  rw [link?_eq_some nodup_saved_links, link?_eq_some h.nodup_ids, h.mem_saved_links]

theorem node?_of_mem_holes {id : NodeId} (h : id ∈ g.holes) : g.node? id = none := by
  obtain ⟨n, hn⟩ := g.exists_slots_eq
  have hslot : g.usedSlots[id]? = some none := (mem_vacancies.mp h).2
  have hlt : id < g.usedSlots.length := (List.getElem?_eq_some_iff.mp hslot).1
  rw [node?, hn, List.getElem?_append_left hlt, hslot]
  rfl

theorem Sound.saved_threads (h : g.Sound) : (g.saved f).threads = none := by
  rw [saved, Arena.toGraph, Arena.threads, if_neg]
  rw [List.any_eq_true]
  rintro ⟨l, hl, hvacant⟩
  have hl : l ∈ g.links := h.tidy.mem_saved_links.mp (List.mem_reverse.mpr hl)
  obtain ⟨⟨_, hs⟩, _, ht⟩ := h.live hl
  simp only [Bool.or_eq_true, decide_eq_true_eq] at hvacant
  rcases hvacant with hv | hv
  · rw [node?_of_mem_holes hv] at hs
    cases hs
  · rw [node?_of_mem_holes hv] at ht
    cases ht

theorem Sound.edge_inj (h : g.Sound) {p : PortRef} {port : Port} (hp : g.port? p = some port)
    {a b : LinkId × PortRef} (ha : a ∈ g.edges p) (hb : b ∈ g.edges p) (he : a.2 = b.2) :
    a = b := by
  obtain ⟨l, hl, hnear, rfl⟩ := (mem_edges h.tidy.unthreaded hp).mp ha
  obtain ⟨l', hl', hnear', rfl⟩ := (mem_edges h.tidy.unthreaded hp).mp hb
  have hends : l.ends = l'.ends := by
    cases hd : port.direction <;> simp_all [Link.ends, Link.near, Link.far, Direction.opposite]
  rw [List.inj_on_of_nodup_map h.simple hl hl' hends]

theorem PortRef.le_iff (a b : Nat) (i j : UInt16) :
    PortRef.le ⟨a, i⟩ ⟨b, j⟩ = true ↔ a < b ∨ a = b ∧ i.toNat ≤ j.toNat := by
  simp [PortRef.le, UInt16.le_iff_toNat_le]

theorem PortRef.le_antisymm {a b : PortRef} (hab : a.le b = true) (hba : b.le a = true) : a = b := by
  obtain ⟨a, i⟩ := a
  obtain ⟨b, j⟩ := b
  rw [PortRef.le_iff] at hab hba
  obtain ⟨hnode, hindex⟩ : @Eq Nat a b ∧ i.toNat = j.toNat := by omega
  rw [hnode, UInt16.toNat_inj.mp hindex]

theorem pairwise_edges (g : Graph κ) (p : PortRef) :
    (g.edges p).Pairwise fun a b => a.2.le b.2 = true := by
  rw [edges]
  split
  · exact List.Pairwise.nil
  · refine List.pairwise_mergeSort (fun a b c hab hbc => ?_) (fun a b => ?_) _
    · rw [PortRef.le_iff] at *
      omega
    · rw [Bool.or_eq_true, PortRef.le_iff, PortRef.le_iff]
      omega

theorem Sound.edges_saved (h : g.Sound) (p : PortRef) : (g.saved f).edges p = g.edges p := by
  cases hp : g.port? p with
  | none => rw [edges, edges, port?_saved, hp]
  | some port =>
      have hperm : ((g.saved f).edges p).Perm (g.edges p) := by
        simp only [edges, port?_saved, hp, linksAt, h.saved_threads, h.tidy.unthreaded]
        refine ((List.mergeSort_perm _ _).trans ?_).trans (List.mergeSort_perm _ _).symm
        exact ((h.tidy.saved_links_perm.filter _).filter _).map _
      refine hperm.eq_of_pairwise (fun a b ha hb hab hba => ?_) ((g.saved f).pairwise_edges p)
        (g.pairwise_edges p)
      exact h.edge_inj hp (hperm.mem_iff.mp ha) hb (PortRef.le_antisymm hab hba)

end Graph

def Node.Placed {κ : Type} (n : Node κ) : Prop :=
  (-2147483648 ≤ n.position.1 ∧ n.position.1 ≤ 2147483647) ∧ -2147483648 ≤ n.position.2 ∧
    n.position.2 ≤ 2147483647

instance {κ : Type} (n : Node κ) : Decidable n.Placed := inferInstanceAs (Decidable (_ ∧ _))

theorem Node.restores {κ : Type} {limit : Nat} {decode : Decoder κ} {j : Json} {k : κ} (n : Node κ)
    (h : Restores (limit - 1) decode j k) (horder : n.order < 4294967296) (hposition : n.Placed) :
    Restores limit (Node.ofJson decode) (n.formOf j) { n with kind := k } := by
  have hports (limit : Nat) : Restores limit (.list Port.ofJson) (.list Port.toJson n.ports) n.ports :=
    .list_self fun p _ => p.restores (limit - 1)
  have hpair (limit : Nat) : Restores limit (.pair .int32 .int32)
    (.array [.int n.position.1, .int n.position.2]) n.position :=
    .pair (.integer _ _ hposition.1) (.integer _ _ hposition.2)
  refine Record.restores ["kind", "title", "ports", "pure", "position", "deprecated", "comment",
    "order"] _ rfl (by decide)
    fun d hd hfields => ?_
  obtain ⟨hkind, -, hps, -, hpos, -, hcomment, hord⟩ := hfields
  obtain ⟨hp, hk⟩ := h d hd hkind
  simp [Record.get, Record.optional, Record.getD, Record.find?, Record.settle, hp, hk,
    hports _ d hd hps, hpair _ d hd hpos,
    restores_text _ n.comment d hd hcomment, Restores.word32 horder d hd hord]
  rfl

namespace Link

theorem restores_ports (limit : Nat) (s t : UInt16) :
    Restores limit portsOfJson
      (.object [("source_port", .nat s.toNat), ("target_port", .nat t.toNat)]) (s, t) := by
  refine Record.restores ["source_port", "target_port"] _ rfl (by decide) fun d hd hfields => ?_
  simp [Record.get, Record.find?, Restores.word16 s d hd hfields.1, Restores.word16 t d hd hfields.2]
  rfl

theorem restores_flow (limit : Nat) (role : Role) (s t : UInt16) :
    Restores limit flowOfJson
      (.tagged role.name (.object [("source_port", .nat s.toNat), ("target_port", .nat t.toNat)]))
        (role, s, t) := by
  refine Case.restores_tagged fun d hd hdepth => ?_
  obtain ⟨hplain, hports⟩ := restores_ports _ s t d hd hdepth
  refine ⟨hplain, ?_⟩
  cases role <;> simp [Role.name, Case.get, hports]

theorem restores (limit : Nat) {l : Link} (hs : l.source.node < 4294967296)
    (ht : l.target.node < 4294967296) :
    Restores limit (Link.ofJson l.id) l.toJson l := by
  intro d hd hdepth
  obtain ⟨hitems, htuple⟩ := tuple_array hdepth
  simp only [List.forall_mem_cons] at hitems
  obtain ⟨hsd, htd, hflow, -⟩ := hitems
  have hle : d - 1 ≤ limit := by omega
  obtain ⟨hsp, hsource⟩ := Restores.word32 hs (d - 1) hle hsd
  obtain ⟨htp, htarget⟩ := Restores.word32 ht (d - 1) hle htd
  obtain ⟨hfp, hflow⟩ := restores_flow limit l.role l.source.index l.target.index (d - 1) hle hflow
  refine ⟨.array (by simp [hsp, htp, hfp]), ?_⟩
  simp only [List.length_cons, List.length_nil] at htuple
  simp only [toJson, ofJson, htuple, bind, Except.bind, List.map_cons, List.map_nil, hsource,
    htarget, hflow]
  rfl

end Link

namespace Graph

variable {κ : Type} {g : Graph κ}

/-- A row whose links stand at their ids. -/
theorem restores_row (limit : Nat) {row : List (Option Link)}
    (h : ∀ (i : Nat) (l : Link), row[i]? = some (some l) →
      l.id = i ∧ l.source.node < 4294967296 ∧ l.target.node < 4294967296) :
    Restores limit rowOfJson (.list (.option Link.toJson) row) row := by
  intro d hd hdepth
  obtain ⟨henter, hitems⟩ := Json.depth_list hdepth
  have hitem (p : Option Link × Nat) (hp : p ∈ row.zipIdx) :
      (Json.option Link.toJson p.1).Plain ∧ Decoder.option (Link.ofJson p.2) (d - 1)
        (Json.option Link.toJson p.1).asRead = .ok p.1 := by
    have hget := List.mem_zipIdx_iff_getElem?.mp hp
    refine Restores.option p.1 (fun l hl => ?_) (d - 1) (Nat.le_refl _)
      (hitems p.1 (List.mem_of_getElem? hget))
    obtain ⟨hid, hs, ht⟩ := h p.2 l (hl ▸ hget)
    exact ⟨hid ▸ Link.restores _ hs ht, by simp [Link.toJson]⟩
  have hplain (o : Option Link) (ho : o ∈ row) : (Json.option Link.toJson o).Plain := by
    obtain ⟨i, hi⟩ := List.mem_iff_getElem?.mp ho
    exact (hitem (o, i) (List.mem_zipIdx_iff_getElem?.mpr hi)).1
  refine ⟨.list hplain, ?_⟩
  rw [Json.asRead_list, Json.list, rowOfJson, enter_eq henter]
  simp only [bind, Except.bind]
  rw [List.zipIdx_map, List.mapM_map, mapM_eq_pure_map (g := Prod.fst) fun p hp => ?_]
  · rw [List.zipIdx_map_fst]
    rfl
  · exact (hitem p hp).2

/-- The numbers of a graph fit in 32 bits. -/
structure Fits (g : Graph κ) : Prop where
  slots : g.slots.length ≤ 4294967296
  nextOrder : g.nextOrder < 4294967296
  positions : ∀ p ∈ g.stored, p.2.Placed

theorem lt_of_node? {id : NodeId} {n : Node κ} (h : g.node? id = some n) : id < g.usedSlots.length := by
  have hsaved := node?_eq_some.mp (by rw [node?_saved (fun k => k) g id, h]; rfl)
  have hlt := (List.getElem?_eq_some_iff.mp hsaved).1
  rwa [saved_slots, List.length_map] at hlt

theorem length_usedSlots (g : Graph κ) : g.usedSlots.length ≤ g.slots.length := by
  obtain ⟨n, hn⟩ := g.exists_slots_eq
  have hlength := congrArg List.length hn
  rw [List.length_append] at hlength
  omega

theorem size_arena (f : κ → κ) (g : Graph κ) : (g.arena f).size = g.usedSlots.length := by
  rw [arena, Arena.size, List.length_map, ← reduceOption_usedSlots]
  exact length_vacancies 0 g.usedSlots

theorem Sound.check_arena (h : g.Sound) (f : κ → κ) : (g.arena f).check = .ok () := by
  have hholes : checkHoles (g.arena f).size 0 (g.arena f).nodes.length (g.arena f).holes = .ok () := by
    have htotal : 0 + g.usedSlots.length ≤ g.usedSlots.length := Nat.le_of_eq (Nat.zero_add _)
    have hcheck := checkHoles_vacancies (Nat.le_refl 0) htotal
    rw [Nat.sub_self, Nat.zero_add, reduceOption_usedSlots] at hcheck
    rwa [size_arena, arena, List.length_map]
  have hrow : ((g.arena f).row.all fun l => l.all fun l => l.source.node <
      (g.arena f).size && l.target.node < (g.arena f).size) = true := by
    rw [List.all_eq_true]
    intro o ho
    cases o with
    | none => rfl
    | some l =>
        have hl : l ∈ g.links := h.tidy.mem_saved_links.mp
          (List.mem_reverse.mpr (List.mem_filterMap.mpr ⟨some l, ho, rfl⟩))
        obtain ⟨⟨_, hs⟩, _, ht⟩ := h.live hl
        simp [size_arena, lt_of_node? hs, lt_of_node? ht]
  rw [Arena.check, hholes, if_pos hrow]
  rfl

theorem Sound.restores_arena (h : g.Sound) (hfits : g.Fits) {limit : Nat} {decode : Decoder κ}
    {encode : κ → Json} {f : κ → κ}
    (hkind : ∀ {k n}, g.node? k = some n → Restores (limit - 3) decode (encode n.kind) (f n.kind)) :
    Restores limit (Arena.ofJson decode)
      (.object
        [("nodes", .list (fun n => n.formOf (encode n.kind)) g.slots.reduceOption),
          ("node_holes", .list .nat g.holes),
          ("edge_property", .str "directed"), ("edges", .list (.option Link.toJson) g.linkRow)])
            (g.arena f) := by
  have hnodes : Restores (limit - 1) (.list (Node.ofJson decode))
      (.list (fun n => n.formOf (encode n.kind)) g.slots.reduceOption)
      (g.slots.reduceOption.map fun n => { n with kind := f n.kind }) := by
    refine .list fun n hn => ?_
    obtain ⟨k, hk⟩ := List.mem_iff_getElem?.mp (List.reduceOption_mem_iff.mp hn)
    have hk : g.node? k = some n := node?_eq_some.mpr hk
    exact Node.restores n ((hkind hk).mono (by omega))
      (Nat.lt_trans (h.order_lt hk) hfits.nextOrder) (hfits.positions _ (mem_stored.mpr hk))
  have hholes : Restores (limit - 1) (.list .word32) (.list .nat g.holes) g.holes := by
    refine .list_self fun i hi => Restores.word32 ?_
    have hlt := (List.getElem?_eq_some_iff.mp (mem_vacancies.mp hi).2).1
    exact Nat.lt_of_lt_of_le hlt (Nat.le_trans g.length_usedSlots hfits.slots)
  have hrow : Restores (limit - 1) rowOfJson (.list (.option Link.toJson) g.linkRow) g.linkRow := by
    refine restores_row _ fun i l hl => ?_
    obtain ⟨id, hid, hl⟩ := Option.map_eq_some_iff.mp (List.getElem?_map.symm.trans hl)
    obtain ⟨hlt, he⟩ := List.getElem?_eq_some_iff.mp hid
    rw [List.getElem_range] at he
    rw [← he] at hl
    obtain ⟨⟨_, hs⟩, _, ht⟩ := h.live (List.mem_of_find?_eq_some hl)
    have hbound {k : NodeId} {n : Node κ} (hk : g.node? k = some n) : k < 4294967296 :=
      Nat.lt_of_lt_of_le (lt_of_node? hk) (Nat.le_trans g.length_usedSlots hfits.slots)
    exact ⟨id_of_link? hl, hbound hs, hbound ht⟩
  refine Record.restores ["nodes", "node_holes", "edge_property", "edges"] _ rfl (by decide)
    fun d hd hfields => ?_
  obtain ⟨hnd, hhd, hpd, hed⟩ := hfields
  have hproperty : Restores (limit - 1) (Case.oneOf [("directed", ())]) (.str "directed") () :=
    Case.restores_oneOf (by rfl)
  simp [Record.get, Record.getD, Record.find?, Record.settle, hnodes d hd hnd, hholes d hd hhd,
    hproperty d hd hpd, hrow d hd hed]
  change ((fun _ => g.arena f) <$> (g.arena f).check) = _
  rw [h.check_arena f]
  rfl

theorem Sound.restores (h : g.Sound) (hfits : g.Fits) {limit : Nat} {decode : Decoder κ}
    {encode : κ → Json} {f : κ → κ}
    (hkind : ∀ {k n}, g.node? k = some n → Restores (limit - 4) decode (encode n.kind) (f n.kind)) :
    Restores limit (ofJsonWith decode)
      (g.formOf (g.slots.reduceOption.map fun n => n.formOf (encode n.kind))) (g.saved f) := by
  have hkind {k : NodeId} {n : Node κ} (hn : g.node? k = some n) :
    Restores (limit - 1 - 3) decode (encode n.kind) (f n.kind) :=
    (hkind hn).mono (by omega)
  have harena := h.restores_arena hfits hkind
  refine Record.restores ["name", "arena", "next_order"] _ rfl (by decide) fun d hd hfields => ?_
  obtain ⟨-, had, hod⟩ := hfields
  obtain ⟨hplain, harena⟩ := harena d hd had
  simp only [Json.list] at hplain harena
  simp [Record.get, Record.getD, Record.find?, Record.settle, Json.list, hplain, harena,
    Restores.word32 hfits.nextOrder d hd hod]
  rfl

end Graph

end VisualScript
