import VisualScript.Proofs.Graph.Representation

namespace VisualScript.Graph

variable {κ : Type} {g g' : Graph κ} {old new : PortRef}

theorem checkLink_congr (h : g'.slots = g.slots) (a b : PortRef) : g'.checkLink a b = g.checkLink a b := by
  simp only [checkLink, port?_congr h]

theorem connect_eq_error_iff {a b : PortRef} {e : GraphError} :
    g.connect a b = .error e ↔ g.checkLink a b = .error e := by
  rw [connect]
  cases g.checkLink a b with
  | error => simp only [Except.error.injEq]
  | ok r =>
      simp only [reduceCtorEq, iff_false]
      split <;> simp

theorem not_linkable_iff {a b : PortRef} : ¬ g.Linkable a b ↔ ∃ e, g.checkLink a b = .error e := by
  rw [← checkLink_ok_iff]
  cases g.checkLink a b <;> simp

theorem Sound.port_of_linked (h : g.Sound) {s t : PortRef} (hl : g.Linked s t) :
    (∃ p, g.port? s = some p ∧ p.direction = .output) ∧
      (∃ p, g.port? t = some p ∧ p.direction = .input) ∧ s.node ≠ t.node := by
  obtain ⟨l, hl, rfl, rfl⟩ := hl
  obtain ⟨⟨p, hp, hs⟩, ⟨q, hq, ht⟩, hapart⟩ := h.joins l hl
  exact ⟨⟨p, hp, (Port.is_iff.mp hs).2⟩, ⟨q, hq, (Port.is_iff.mp ht).2⟩, hapart⟩

/-- A port that is disconnected is at no end of a link. -/
theorem Sound.linked_disconnect (h : g.Sound) (p s t : PortRef) :
    (g.disconnect p).Linked s t ↔ g.Linked s t ∧ s ≠ p ∧ t ≠ p := by
  cases hp : g.port? p with
  | none =>
      have hsame : g.disconnect p = g := by simp [Graph.disconnect, Graph.edges, hp]
      rw [hsame]
      refine ⟨fun hl => ⟨hl, ?_, ?_⟩, And.left⟩ <;> rintro rfl
      · obtain ⟨⟨_, hs, _⟩, _⟩ := h.port_of_linked hl
        exact Option.some_ne_none _ (hs.symm.trans hp)
      · obtain ⟨_, ⟨_, ht, _⟩, _⟩ := h.port_of_linked hl
        exact Option.some_ne_none _ (ht.symm.trans hp)
  | some port =>
      cases hd : port.direction with
      | output =>
          rw [Graph.linked_disconnect h.tidy hp, hd]
          refine and_congr_right fun hl => ⟨fun hs => ⟨hs, ?_⟩, And.left⟩
          rintro rfl
          obtain ⟨_, ⟨q, hq, hin⟩, _⟩ := h.port_of_linked hl
          cases hp.symm.trans hq
          cases hd.symm.trans hin
      | input =>
          rw [Graph.linked_disconnect h.tidy hp, hd]
          refine and_congr_right fun hl => ⟨fun ht => ⟨?_, ht⟩, And.right⟩
          rintro rfl
          obtain ⟨⟨q, hq, hout⟩, _⟩ := h.port_of_linked hl
          cases hp.symm.trans hq
          cases hd.symm.trans hout

def Between (g : Graph κ) (a b s t : PortRef) : Prop := ∃ role, g.checkLink a b = .ok (s, t, role)

theorem Between.ends {a b s t : PortRef} (h : g.Between a b s t) : s = a ∧ t = b ∨ s = b ∧ t = a := by
  obtain ⟨role, h⟩ := h
  obtain ⟨_, _, _, _, _, _, _, _, _, hends⟩ := checkLink_cases h
  exact hends

theorem Linkable.exists_between {a b : PortRef} (h : g.Linkable a b) :
    g.Between a b a b ∨ g.Between a b b a := by
  obtain ⟨⟨s, t, role⟩, hr⟩ := checkLink_ok_iff.mpr h
  have hbetween : g.Between a b s t := ⟨role, hr⟩
  rcases hbetween.ends with ⟨rfl, rfl⟩ | ⟨rfl, rfl⟩
  · exact Or.inl hbetween
  · exact Or.inr hbetween

theorem Linkable.ne {a b : PortRef} (h : g.Linkable a b) : b ≠ a := by
  rintro rfl
  obtain ⟨_, _, _, _, hapart, _⟩ := h
  exact hapart rfl

theorem Sound.not_mem_farEnds_self (h : g.Sound) (p : PortRef) : p ∉ g.farEnds p := fun hp =>
  (h.mem_farEnds.mp hp).elim (fun hl => (h.port_of_linked hl).2.2 rfl) fun hl =>
    (h.port_of_linked hl).2.2 rfl

/-- How far linking a port to others comes: up to the first one that is refused. -/
theorem Tidy.connectAll_cases (h : g.Tidy) (p : PortRef) (far : List PortRef) :
    ∃ moved lost, far = moved ++ lost ∧ (∀ q ∈ moved, g.Linkable p q) ∧
      (∀ s t, (g.connectAll p far).1.Linked s t ↔ g.Linked s t ∨ ∃ q ∈ moved, g.Between p q s t) ∧
      (lost = [] ∧ (g.connectAll p far).2 = .ok () ∨
        ∃ q rest e, lost = q :: rest ∧ g.checkLink p q = .error e ∧
          (g.connectAll p far).2 = .error e) := by
  induction far generalizing g with
  | nil => exact ⟨[], [], rfl, List.forall_mem_nil _, by simp [connectAll], Or.inl ⟨rfl, rfl⟩⟩
  | cons q rest ih =>
      rw [connectAll]
      cases hc : g.connect p q with
      | error e =>
          refine ⟨[], q :: rest, rfl, List.forall_mem_nil _, by simp, Or.inr ⟨q, rest, e, rfl, ?_, rfl⟩⟩
          exact connect_eq_error_iff.mp hc
      | ok r =>
          obtain ⟨l, g'⟩ := r
          have hslots := connect_slots hc
          obtain ⟨moved, lost, hfar, hmoved, hlinked, hend⟩ := ih (h.connect hc)
          obtain ⟨source, target, role, hcheck, hconnect⟩ := connect_linked h hc
          have hsame (a b : PortRef) : g'.checkLink a b = g.checkLink a b := checkLink_congr hslots a b
          have hbetween (s t : PortRef) : g.Between p q s t ↔ s = source ∧ t = target := by
            simp [Between, hcheck, eq_comm]
          refine ⟨q :: moved, lost, by rw [hfar, List.cons_append], ?_, fun s t => ?_, ?_⟩
          · refine List.forall_mem_cons.mpr ⟨checkLink_ok_iff.mp ⟨_, hcheck⟩, fun k hk => ?_⟩
            obtain ⟨r, hr⟩ := checkLink_ok_iff.mpr (hmoved k hk)
            exact checkLink_ok_iff.mp ⟨r, hsame p k ▸ hr⟩
          · rw [hlinked, hconnect, List.exists_mem_cons_iff, hbetween]
            simp only [Between, hsame]
            tauto
          · refine hend.imp id ?_
            rintro ⟨k, rest, e, hlost, he, hresult⟩
            exact ⟨k, rest, e, hlost, hsame p k ▸ he, hresult⟩

/-- What moving links leaves: the old port has none, the new one has those that were moved beside
its own, and nothing else has changed. -/
structure Relinked (g g' : Graph κ) (old new : PortRef) (moved : List PortRef) : Prop where
  slots : g'.slots = g.slots
  cleared : g'.farEnds old = []
  gained : ∀ q, q ∈ g'.farEnds new ↔ q ∈ moved ∨ q ∈ g.farEnds new ∧ q ≠ old
  others : ∀ s t, s ≠ old → s ≠ new → t ≠ old → t ≠ new → (g'.Linked s t ↔ g.Linked s t)

theorem Sound.moveLinks (h : g.Sound) (old new : PortRef) :
    (g.moveLinks old new).1.Sound := (h.disconnect old).connectAll new _

theorem Sound.linked_moveLinks (h : g.Sound) (old new : PortRef) :
    ∃ moved lost, g.farEnds old = moved ++ lost ∧ (∀ q ∈ moved, g.Linkable new q) ∧
      (∀ s t, (g.moveLinks old new).1.Linked s t ↔ g.Linked s t ∧ s ≠ old ∧ t ≠ old ∨ ∃ q ∈ moved,
        g.Between new q s t) ∧
      (lost = [] ∧ (g.moveLinks old new).2 = .ok () ∨
        ∃ q rest e, lost = q :: rest ∧ g.checkLink new q = .error e ∧
          (g.moveLinks old new).2 = .error e) := by
  -- Ports stay as they are while links are taken off and put on, so what can be linked is the same
  -- throughout.
  have hsame (a b : PortRef) : (g.disconnect old).checkLink a b = g.checkLink a b :=
    checkLink_congr (g.disconnect_slots old) a b
  obtain ⟨moved, lost, hfar, hmoved, hlinked, hend⟩ :=
    (h.tidy.disconnect old).connectAll_cases new (g.farEnds old)
  refine ⟨moved, lost, hfar, fun q hq => ?_, fun s t => ?_, hend.imp id ?_⟩
  · obtain ⟨r, hr⟩ := checkLink_ok_iff.mpr (hmoved q hq)
    exact checkLink_ok_iff.mp ⟨r, hsame new q ▸ hr⟩
  · rw [Graph.moveLinks, hlinked, h.linked_disconnect]
    simp only [Between, hsame]
  · rintro ⟨q, rest, e, hlost, he, hresult⟩
    exact ⟨q, rest, e, hlost, hsame new q ▸ he, hresult⟩

theorem Sound.relinked (h : g.Sound) (hne : old ≠ new) {moved : List PortRef}
    (hmoved : ∀ q ∈ moved, q ∈ g.farEnds old ∧ g.Linkable new q)
    (hlinked : ∀ s t, (g.moveLinks old new).1.Linked s t ↔
      g.Linked s t ∧ s ≠ old ∧ t ≠ old ∨ ∃ q ∈ moved, g.Between new q s t) :
    Relinked g (g.moveLinks old new).1 old new moved := by
  refine ⟨(connectAll_slots ..).trans (g.disconnect_slots old), ?_, fun q => ?_,
    fun s t hs hs' ht ht' => ?_⟩
  · -- A link at the old port would be one that was moved, to a far end that is the old port itself.
    have hnone {q s t : PortRef} (hq : q ∈ moved) (hb : g.Between new q s t) : s ≠ old ∧ t ≠ old := by
      have hold : q ≠ old := fun he => h.not_mem_farEnds_self old (he ▸ (hmoved q hq).1)
      rcases hb.ends with ⟨rfl, rfl⟩ | ⟨rfl, rfl⟩
      · exact ⟨hne.symm, hold⟩
      · exact ⟨hold, hne.symm⟩
    refine List.eq_nil_iff_forall_not_mem.mpr fun q hq => ?_
    rcases (h.moveLinks old new).mem_farEnds.mp hq with hl | hl <;>
      rcases (hlinked _ _).mp hl with ⟨_, hs, ht⟩ | ⟨k, hk, hb⟩
    · exact hs rfl
    · exact (hnone hk hb).1 rfl
    · exact ht rfl
    · exact (hnone hk hb).2 rfl
  · have hgained : (∃ k ∈ moved, g.Between new k new q) ∨ (∃ k ∈ moved, g.Between new k q new) ↔
        q ∈ moved := by
      constructor
      · rintro (⟨k, hk, hb⟩ | ⟨k, hk, hb⟩) <;> rcases hb.ends with ⟨h1, h2⟩ | ⟨h1, h2⟩
        · exact h2 ▸ hk
        · exact absurd h1.symm (hmoved k hk).2.ne
        · exact absurd h2.symm (hmoved k hk).2.ne
        · exact h1 ▸ hk
      · intro hq
        exact (hmoved q hq).2.exists_between.imp (fun hb => ⟨q, hq, hb⟩) fun hb => ⟨q, hq, hb⟩
    rw [(h.moveLinks old new).mem_farEnds, hlinked, hlinked, h.mem_farEnds, ← hgained,
      and_iff_right hne.symm,
      and_iff_left hne.symm, or_and_right, or_or_or_comm, or_comm]
  · rw [hlinked]
    constructor
    · rintro (⟨hl, _⟩ | ⟨k, _, hb⟩)
      · exact hl
      · rcases hb.ends with ⟨h1, _⟩ | ⟨_, h2⟩
        · exact absurd h1 hs'
        · exact absurd h2 ht'
    · exact fun hl => Or.inl ⟨hl, hs, ht⟩

theorem Sound.moveLinks_cases (h : g.Sound) (hne : old ≠ new) :
    ∃ moved lost, g.farEnds old = moved ++ lost ∧ (∀ q ∈ moved, g.Linkable new q) ∧
      Relinked g (g.moveLinks old new).1 old new moved ∧
      (lost = [] ∧ (g.moveLinks old new).2 = .ok () ∨
        ∃ q rest e, lost = q :: rest ∧ g.checkLink new q = .error e ∧
          (g.moveLinks old new).2 = .error e) := by
  obtain ⟨moved, lost, hfar, hmoved, hlinked, hend⟩ := h.linked_moveLinks old new
  have hmem : ∀ q ∈ moved, q ∈ g.farEnds old ∧ g.Linkable new q := fun q hq =>
    ⟨hfar ▸ List.mem_append_left lost hq, hmoved q hq⟩
  exact ⟨moved, lost, hfar, hmoved, h.relinked hne hmem hlinked, hend⟩

/-- Moving the links of a port to another loses none: if it succeeds, the other port has them beside
its own and nothing else has changed; if it is refused, the links are what they were. -/
def KeepsLinks (g : Graph κ) (old new : PortRef) : Prop :=
  ((g.moveLinks old new).2 = .ok () → (g.moveLinks old new).1.farEnds old = [] ∧
    (∀ q, q ∈ (g.moveLinks old new).1.farEnds new ↔ q ∈ g.farEnds new ∨ q ∈ g.farEnds old) ∧
    ∀ s t, s ≠ old → s ≠ new → t ≠ old → t ≠ new → ((g.moveLinks old new).1.Linked s t ↔ g.Linked s t)) ∧
  ∀ e, (g.moveLinks old new).2 = .error e → ∀ s t, (g.moveLinks old new).1.Linked s t ↔ g.Linked s t

/-- Links are moved in order, up to the first far end that the new port cannot be linked to; that
one and those behind it are lost. So no link is lost just if the new port can be linked to every far
end of the old one, and only then moving succeeds. -/
theorem moveLinks_keeps_iff (h : g.Sound) (hne : old ≠ new) :
    (∃ moved lost, g.farEnds old = moved ++ lost ∧ (∀ q ∈ moved, g.Linkable new q) ∧
      Relinked g (g.moveLinks old new).1 old new moved ∧
      (lost = [] ∧ (g.moveLinks old new).2 = .ok () ∨
        ∃ q rest e, lost = q :: rest ∧ g.checkLink new q = .error e ∧
          (g.moveLinks old new).2 = .error e)) ∧
    ((g.moveLinks old new).2 = .ok () ↔ ∀ q ∈ g.farEnds old, g.Linkable new q) ∧
    (KeepsLinks g old new ↔ ∀ q ∈ g.farEnds old, g.Linkable new q) := by
  have hcases := h.moveLinks_cases hne
  refine ⟨hcases, ?_⟩
  obtain ⟨moved, lost, hfar, hmoved, hrelinked, ⟨rfl, hok⟩ | ⟨q, rest, e, rfl, hrefused, herror⟩⟩ := hcases
  · rw [List.append_nil] at hfar
    have hall : ∀ q ∈ g.farEnds old, g.Linkable new q := hfar ▸ hmoved
    -- The two ports are not linked to each other, as the new one cannot be linked to itself.
    have hapart {q : PortRef} (hq : q ∈ g.farEnds new) : q ≠ old := by
      rintro rfl
      have hnew : new ∈ g.farEnds q := by rwa [h.mem_farEnds, or_comm, ← h.mem_farEnds]
      exact (hall new hnew).ne rfl
    refine ⟨iff_of_true hok hall,
      iff_of_true ⟨fun _ => ⟨hrelinked.cleared, fun q => ?_, hrelinked.others⟩, ?_⟩ hall⟩
    · rw [hrelinked.gained, hfar, or_comm, and_iff_left_of_imp hapart]
    · intro e he
      cases hok.symm.trans he
  · have hq : q ∈ g.farEnds old := hfar ▸ List.mem_append_right moved List.mem_cons_self
    have hnot : ¬ ∀ q ∈ g.farEnds old, g.Linkable new q :=
      fun hall => not_linkable_iff.mpr ⟨e, hrefused⟩ (hall q hq)
    refine ⟨iff_of_false (fun hok => by cases herror.symm.trans hok) hnot,
      iff_of_false (fun hkeeps => ?_) hnot⟩
    have hsame := hkeeps.2 e herror
    have hlost : q ∈ (g.moveLinks old new).1.farEnds old := by
      rw [(h.moveLinks old new).mem_farEnds, hsame, hsame, ← h.mem_farEnds]
      exact hq
    rw [hrelinked.cleared] at hlost
    cases hlost

/-- A value that is shown and stored, a store that passes it on, and a second value. -/
def board : ScriptGraph :=
  let int : PinType := ⟨.int, .single⟩
  let g := (Graph.addNode { name := "board" } (ScriptNode.literal int "5")).2
  let g := (g.addNode ((ScriptNode.call "show").addPorts [.dataIn "value" int])).2
  let g := (g.addNode (ScriptNode.variableSet "total" int)).2
  let g := (g.addNode (ScriptNode.literal int "7")).2
  (g.attempt ⟨0, 0⟩ ⟨1, 2⟩).attempt ⟨0, 0⟩ ⟨2, 2⟩

theorem board_sound : board.Sound :=
  (((((((Built.empty "board").addNode _).addNode _).addNode _).addNode _).connect ⟨0, 0⟩
    ⟨1, 2⟩).connect ⟨0, 0⟩ ⟨2, 2⟩).sound.1

theorem farEnds_board : board.farEnds ⟨0, 0⟩ = [⟨1, 2⟩, ⟨2, 2⟩] := by cbv

/-- The first value gives way to the second. -/
theorem board_keeps_links : KeepsLinks board ⟨0, 0⟩ ⟨3, 0⟩ := by
  refine (moveLinks_keeps_iff board_sound (by decide)).2.2.mpr fun q hq => ?_
  rw [farEnds_board, List.mem_pair] at hq
  rcases hq with rfl | rfl
  · exact checkLink_ok_iff.mp ⟨(⟨3, 0⟩, ⟨1, 2⟩, .data), by cbv⟩
  · exact checkLink_ok_iff.mp ⟨(⟨3, 0⟩, ⟨2, 2⟩, .data), by cbv⟩

/-- The store cannot be linked to itself. So its link to the first value is lost, and the other one
has been moved all the same. -/
theorem board_loses_links : board.Sound ∧ (board.moveLinks ⟨0, 0⟩ ⟨2, 3⟩).2 = .error (.selfLink 2) ∧
    board.Linked ⟨0, 0⟩ ⟨2, 2⟩ ∧ (∀ s, ¬ (board.moveLinks ⟨0, 0⟩ ⟨2, 3⟩).1.Linked s ⟨2, 2⟩) ∧
    ¬ KeepsLinks board ⟨0, 0⟩ ⟨2, 3⟩ := by
  have herror : (board.moveLinks ⟨0, 0⟩ ⟨2, 3⟩).2 = .error (.selfLink 2) := by cbv
  have hlinks : board.links = [⟨1, ⟨0, 0⟩, ⟨2, 2⟩, .data⟩, ⟨0, ⟨0, 0⟩, ⟨1, 2⟩, .data⟩] := by cbv
  have hlinked : board.Linked ⟨0, 0⟩ ⟨2, 2⟩ := ⟨_, hlinks ▸ List.mem_cons_self, rfl, rfl⟩
  have hleft : (board.moveLinks ⟨0, 0⟩ ⟨2, 3⟩).1.links = [⟨1, ⟨2, 3⟩, ⟨1, 2⟩, .data⟩] := by cbv
  have hlost (s : PortRef) : ¬ (board.moveLinks ⟨0, 0⟩ ⟨2, 3⟩).1.Linked s ⟨2, 2⟩ := by
    rintro ⟨l, hl, -, ht⟩
    rw [hleft, List.mem_singleton] at hl
    subst hl
    exact absurd ht (by decide)
  exact ⟨board_sound, herror, hlinked, hlost, fun hkeeps => hlost _ ((hkeeps.2 _ herror _ _).mpr hlinked)⟩

end VisualScript.Graph
