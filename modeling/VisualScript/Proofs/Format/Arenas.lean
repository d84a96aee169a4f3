import VisualScript.Proofs.Format.Graphs

namespace VisualScript

section Except

variable {ε α β : Type}

theorem bind_eq_ok {x : Except ε α} {f : α → Except ε β} {b : β} (h : (x >>= f) = .ok b) :
    ∃ a, x = .ok a ∧ f a = .ok b := by
  cases x with
  | error e => cases h
  | ok a => exact ⟨a, rfl, h⟩

theorem getElem?_of_mapM {f : α → Except ε β} {l : List α} {r : List β} (h : l.mapM f = .ok r)
    {i : Nat} {b : β} (hb : r[i]? = some b) : ∃ a, l[i]? = some a ∧ f a = .ok b := by
  induction l generalizing r i with
  | nil =>
      cases h
      cases hb
  | cons a l ih =>
      rw [List.mapM_cons] at h
      obtain ⟨c, hc, h⟩ := bind_eq_ok h
      obtain ⟨r', hr', h⟩ := bind_eq_ok h
      cases h
      cases i with
      | zero =>
          cases hb
          exact ⟨a, rfl, hc⟩
      | succ i => exact ih hr' hb

end Except

theorem Decoder.option_eq_some {α : Type} {decode : Decoder α} {d : Nat} {j : Json} {a : α}
    (h : Decoder.option decode d j = .ok (some a)) : decode d j = .ok a := by
  unfold Decoder.option at h
  split at h
  · cases h
  · cases hd : decode d _ with
    | error e =>
        rw [hd] at h
        cases h
    | ok b =>
        rw [hd] at h
        cases h
        rfl

theorem Link.id_of_ofJson {id : LinkId} {d : Nat} {j : Json} {l : Link}
    (h : Link.ofJson id d j = .ok l) : l.id = id := by
  obtain ⟨⟨d, items⟩, -, h⟩ := bind_eq_ok h
  split at h
  · obtain ⟨_, -, h⟩ := bind_eq_ok h
    obtain ⟨_, -, h⟩ := bind_eq_ok h
    obtain ⟨_, -, h⟩ := bind_eq_ok h
    cases h
    rfl
  · cases h

namespace Graph

variable {κ : Type}

theorem id_of_rowOfJson {d : Nat} {j : Json} {row : List (Option Link)}
    (h : rowOfJson d j = .ok row) {i : Nat} {l : Link} (hl : row[i]? = some (some l)) :
    l.id = i := by
  unfold rowOfJson at h
  split at h
  · obtain ⟨d', -, h⟩ := bind_eq_ok h
    obtain ⟨p, hp, hlink⟩ := getElem?_of_mapM h hl
    rw [List.getElem?_zipIdx, Option.map_eq_some_iff] at hp
    obtain ⟨k, -, rfl⟩ := hp
    rw [Link.id_of_ofJson (Decoder.option_eq_some hlink), Nat.zero_add]
  · cases h

theorem checkHoles_cons {total place left hole : Nat} {holes : List Nat}
    (h : checkHoles total place left (hole :: holes) = .ok ()) :
    (place ≤ hole ∧ hole < total ∧ hole - place ≤ left) ∧
      checkHoles total (hole + 1) (left - (hole - place)) holes = .ok () := by
  rw [checkHoles] at h
  split at h
  · cases h
  · next hinside =>
      split at h
      · cases h
      · next hleft =>
          have hinside : ¬ (hole < place ∨ total ≤ hole) := hinside
          have hleft : ¬ left < hole - place := hleft
          exact ⟨by omega, h⟩

theorem nodup_holes {total place left : Nat} {holes : List Nat}
    (h : checkHoles total place left holes = .ok ()) :
    (∀ hole ∈ holes, place ≤ hole) ∧ holes.Nodup := by
  induction holes generalizing place left with
  | nil => exact ⟨List.forall_mem_nil _, List.nodup_nil⟩
  | cons hole holes ih =>
      obtain ⟨hhole, hrest⟩ := checkHoles_cons h
      obtain ⟨hle, hnodup⟩ := ih hrest
      refine ⟨List.forall_mem_cons.mpr ⟨hhole.1, fun k hk => ?_⟩,
        List.nodup_cons.mpr ⟨fun hm => ?_, hnodup⟩⟩
      · have hk := hle k hk
        omega
      · have hk := hle hole hm
        omega

theorem checkHoles_succ {total place left hole : Nat} {holes : List Nat}
    (h : checkHoles total place (left + 1) (hole :: holes) = .ok ()) (hlater : place < hole) :
    checkHoles total (place + 1) left (hole :: holes) = .ok () := by
  obtain ⟨hhole, hrest⟩ := checkHoles_cons h
  have hinside : ¬ (hole < place + 1 ∨ total ≤ hole) := by omega
  have hleft : ¬ left < hole - (place + 1) := by omega
  have hsame : left - (hole - (place + 1)) = left + 1 - (hole - place) := by omega
  rw [checkHoles, if_neg hinside, if_neg hleft, hsame]
  exact hrest

/-- Checked vacant ids stay vacant. -/
theorem interleave_hole {α : Type} {total count place : Nat} {holes : List Nat} {items : List α}
    (h : checkHoles total place items.length holes = .ok ())
    (hcount : count = items.length + holes.length) {hole : Nat} (hm : hole ∈ holes) :
    (interleave count place holes items)[hole - place]? = some none := by
  induction count generalizing place holes items with
  | zero =>
      have hlength := List.length_pos_of_mem hm
      omega
  | succ count ih =>
      cases holes with
      | nil => cases hm
      | cons first rest =>
          obtain ⟨hfirst, hrest⟩ := checkHoles_cons h
          have hle := (nodup_holes hrest).1
          rw [List.length_cons] at hcount
          by_cases he : first = place
          · -- The place is vacant.
            subst he
            have hopen : interleave (count + 1) first (first :: rest) items =
                none :: interleave count (first + 1) rest items := by
              cases items <;> simp [interleave]
            rw [hopen]
            rw [Nat.sub_self, Nat.sub_zero] at hrest
            rcases List.mem_cons.mp hm with rfl | hm
            · rw [Nat.sub_self]
              rfl
            · have hlater := hle hole hm
              have hindex : hole - first = hole - (first + 1) + 1 := by omega
              rw [hindex, List.getElem?_cons_succ]
              exact ih hrest (by omega) hm
          · -- The next item takes the place.
            cases items with
            | nil =>
                rw [List.length_nil] at hfirst
                omega
            | cons a items =>
                rw [List.length_cons] at hcount
                have hnext := checkHoles_succ h (by omega)
                have hlater := (nodup_holes hnext).1 hole hm
                have hindex : hole - place = hole - (place + 1) + 1 := by omega
                rw [interleave, if_neg he, hindex, List.getElem?_cons_succ]
                exact ih hnext (by rw [List.length_cons]; omega) hm

namespace Arena

/-- What reading makes sure of. -/
structure Checked (a : Arena κ) : Prop where
  holes : checkHoles a.size 0 a.nodes.length a.holes = .ok ()
  ids : ∀ {i : Nat} {l : Link}, a.row[i]? = some (some l) → l.id = i

variable {a : Arena κ}

theorem checked_of_ofJson {decode : Decoder κ} {d : Nat} {j : Json}
    (h : Arena.ofJson decode d j = .ok a) : a.Checked := by
  obtain ⟨r, -, h⟩ := bind_eq_ok h
  obtain ⟨_, -, h⟩ := bind_eq_ok h
  obtain ⟨_, -, h⟩ := bind_eq_ok h
  obtain ⟨nodes, -, h⟩ := bind_eq_ok h
  obtain ⟨holes, -, h⟩ := bind_eq_ok h
  obtain ⟨row, hrow, h⟩ := bind_eq_ok h
  obtain ⟨_, hcheck, h⟩ := bind_eq_ok h
  cases h
  obtain ⟨_, hholes, -⟩ := bind_eq_ok hcheck
  refine ⟨hholes, fun hl => ?_⟩
  rw [Record.get] at hrow
  split at hrow
  · exact id_of_rowOfJson hrow hl
  · cases hrow

theorem perm_ids {row : List (Option Link)} {place : Nat}
    (h : ∀ {i : Nat} {l : Link}, row[i]? = some (some l) → l.id = place + i) :
    ((row.filterMap fun l => l).map Link.id ++ vacancies place row).Perm
      (List.range' place row.length) := by
  induction row generalizing place with
  | nil => exact .nil
  | cons o row ih =>
      have hlater {i : Nat} {l : Link} (hl : row[i]? = some (some l)) : l.id = place + 1 + i := by
        have hid : l.id = place + (i + 1) := h (by rw [List.getElem?_cons_succ, hl])
        have hsum : place + (i + 1) = place + 1 + i := by omega
        exact hid.trans hsum
      have hrest := ih hlater
      cases o with
      | none =>
          rw [vacancies_none, List.filterMap_cons_none rfl, List.length_cons, List.range'_succ]
          exact List.perm_middle.trans (hrest.cons place)
      | some l =>
          have hid : l.id = place := h (by rfl : (some l :: row)[0]? = some (some l))
          have hcons : (some l :: row).filterMap (fun l => l) = l :: row.filterMap fun l => l := rfl
          rw [vacancies_some, hcons, List.map_cons, hid, List.length_cons, List.range'_succ,
            List.cons_append]
          exact hrest.cons place

theorem Checked.slots (h : a.Checked) {hole : NodeId} (hm : hole ∈ a.holes) : a.slots[hole]? = some none :=
  interleave_hole h.holes rfl hm

theorem Checked.threads (h : a.Checked) {name : String} {nextOrder : Nat}
    (hjoins : ∀ l ∈ a.links, (a.toGraph name nextOrder).contains l.source.node = true ∧
      (a.toGraph name nextOrder).contains l.target.node = true) : a.threads = none := by
  have hvacant {id : NodeId} (hid : id ∈ a.holes) (hlive : (a.toGraph name nextOrder).contains id =
      true) : False := by
    obtain ⟨n, hn⟩ := contains_iff.mp hlive
    have hslot : a.slots[id]? = some (some n) := node?_eq_some.mp hn
    rw [h.slots hid] at hslot
    cases hslot
  rw [Arena.threads, if_neg]
  rw [List.any_eq_true]
  rintro ⟨l, hl, hhole⟩
  simp only [Bool.or_eq_true, decide_eq_true_eq] at hhole
  rcases hhole with hs | ht
  · exact hvacant hs (hjoins l hl).1
  · exact hvacant ht (hjoins l hl).2

theorem Checked.tidy (h : a.Checked) (hthreads : a.threads = none) (name : String) (nextOrder : Nat) :
    (a.toGraph name nextOrder).Tidy := by
  have hperm : ((a.toGraph name nextOrder).links.map Link.id ++
      (a.toGraph name nextOrder).vacantLinks).Perm
      (List.range' 0 a.row.length) := by
    have hids := perm_ids fun {i l} hl => (h.ids hl).trans (Nat.zero_add i).symm
    have hlinks : (a.toGraph name nextOrder).links.map Link.id = (a.links.map Link.id).reverse :=
      List.map_reverse
    rw [hlinks]
    exact ((List.reverse_perm _).append (List.reverse_perm _)).trans hids
  refine ⟨hthreads, List.nodup_reverse.mpr (nodup_holes h.holes).2,
    fun id hid => h.slots (List.mem_reverse.mp hid),
    hperm.nodup_iff.mpr List.nodup_range', fun id hid => ?_⟩
  have hlt := List.mem_range'_1.mp (hperm.mem_iff.mp hid)
  exact Nat.lt_of_lt_of_eq hlt.2 (Nat.zero_add _)

end Arena

def Read (g : Graph κ) : Prop := ∃ decode d j, ofJsonWith decode d j = .ok g

theorem Read.tidy {g : Graph κ} (h : g.Read)
    (hjoins : ∀ l ∈ g.links, g.contains l.source.node = true ∧ g.contains l.target.node = true) :
    g.Tidy ∧ g.torn = false := by
  obtain ⟨decode, d, j, h⟩ := h
  obtain ⟨r, -, h⟩ := bind_eq_ok h
  obtain ⟨_, -, h⟩ := bind_eq_ok h
  obtain ⟨a, harena, h⟩ := bind_eq_ok h
  obtain ⟨name, -, h⟩ := bind_eq_ok h
  obtain ⟨nextOrder, -, h⟩ := bind_eq_ok h
  cases h
  rw [Record.get] at harena
  split at harena
  · have hchecked := Arena.checked_of_ofJson harena
    exact ⟨hchecked.tidy (hchecked.threads fun l hl => hjoins l (List.mem_reverse.mpr hl)) name
      nextOrder, rfl⟩
  · cases harena

end Graph

end VisualScript
