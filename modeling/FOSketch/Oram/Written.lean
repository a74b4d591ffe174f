import FOSketch.Oram.Trace

/-!
# The stash after any `OWriteToStash`

With more than a hundred blocks at once `OWriteToStash` runs out of slots: `length_st` grows by `PACE_STASH` but is taken
back by 8. What still holds then (`Written`) is enough to follow the slots an access touches, with no bound on the load.
-/

namespace FOSketch.Oram

open Slots

variable {n : Nat} {L : Layout}

/-! ## Writing without a bound -/

@[simp] theorem length_writeScan (pace : Nat) (move : Block n → Block n → Bool → Block n) (p : Block n)
    (j length_st : Nat) (found : Bool) (slots : List (Block n)) :
    (writeScan pace move p j length_st found slots).1.length = slots.length := by
  induction slots generalizing j length_st found with
  | nil => rfl
  | cons s slots ih =>
    unfold writeScan
    dsimp only
    split_ifs <;> simp [ih]

/-- `length_st` falls only near the end of the stash, and no further than to 98. -/
theorem writeScan_length_st (move : Block n → Block n → Bool → Block n) (p : Block n) (slots : List (Block n))
    (j : Nat) {length_st : Nat} (found : Bool) (hle : length_st ≤ MAX_STASH_NUM) :
    (writeScan PACE_STASH move p j length_st found slots).2 ≤ MAX_STASH_NUM ∧
      ∀ low ≤ 98, low ≤ length_st → low ≤ (writeScan PACE_STASH move p j length_st found slots).2 := by
  induction slots generalizing j length_st found with
  | nil => exact ⟨hle, fun low _ h => h⟩
  | cons s slots ih =>
    unfold writeScan
    dsimp only
    split_ifs with h1 h2 h3
    · rw [MAX_STASH_NUM] at *
      rw [PACE_STASH] at *
      refine ⟨by omega, fun low hlow _ => ?_⟩
      omega
    · obtain ⟨h4, h5⟩ := ih (j + 1) (found || (!s.real && p.real)) (not_lt.mp h3)
      exact ⟨h4, fun low hlow h => h5 low hlow (by omega)⟩
    · exact ih (j + 1) (found || (!s.real && p.real)) hle
    · exact ⟨hle, fun low _ h => h⟩

def State.writeOne (s : State L) (p : Block L.bytes) : State L :=
  let r := writeScan PACE_STASH copyIf p 0 s.length_st false s.stash
  { s with stash := r.1, length_st := r.2 }

/-- What the writing of a block keeps, the writing of a path keeps. -/
theorem OWriteToStash_induction {P : State L → Prop} (hstep : ∀ s p, P s → P (s.writeOne p)) {s : State L} (h : P s)
    (Path : List (List (Block L.bytes))) : P (OWriteToStash s Path) := by
  rw [OWriteToStash_eq]
  unfold writeLoop
  generalize Path.flatten = ps
  induction ps generalizing s with
  | nil => exact h
  | cons p ps ih => exact ih (hstep s p h)

theorem Window.writeOne {s : State L} (h : Window s) (p : Block L.bytes) : Window (s.writeOne p) := by
  obtain ⟨hmax, hlow⟩ := writeScan_length_st copyIf p s.stash 0 false h.le
  exact ⟨(length_writeScan _ _ _ _ _ _ _).trans h.length, hlow _ (by decide) h.pos, hmax⟩

theorem Window.OWriteToStash {s : State L} (h : Window s) (Path : List (List (Block L.bytes))) :
    Window (OWriteToStash s Path) := OWriteToStash_induction (fun _ p hs => hs.writeOne p) h Path

/-- The stash when a path was written, however many blocks there were. -/
structure Written (w : State L) : Prop where
  length : w.stash.length = MAX_STASH_NUM
  pos : DEFAULT_STASH_LENGTH ≤ w.length_st
  le : w.length_st ≤ MAX_STASH_NUM
  hidden : HolesFrom Block.real w.length_st w.stash ∨ 98 ≤ w.length_st

theorem StashShape.written {s : State L} (h : StashShape s) : Written s := ⟨h.length, h.pos, h.le, Or.inl h.holes⟩

theorem Written.window {w : State L} (h : Written w) : Window w := ⟨h.length, h.pos, h.le⟩

theorem Written.writeOne {s : State L} (h : Written s) (p : Block L.bytes) : Written (s.writeOne p) := by
  obtain ⟨hlen, hpos, hle⟩ := h.window.writeOne p
  have hfar : 98 ≤ s.length_st → Written (s.writeOne p) := fun h98 =>
    ⟨hlen, hpos, hle, Or.inr ((writeScan_length_st copyIf p s.stash 0 false h.le).2 _ le_rfl h98)⟩
  rcases h.hidden with hholes | h98
  · cases hp : p.real with
    | false =>
      unfold State.writeOne
      dsimp only
      rw [writeScan_dummy PACE_STASH hp]
      exact h
    | true =>
      by_cases hroom : (occupants Block.real s.stash).length + PACE_STASH ≤ MAX_STASH_NUM
      · obtain ⟨len, hscan, -, hshape⟩ := writeScan_room (by decide) ⟨h.length, h.pos, h.le, hholes⟩ hp fun he =>
          he ▸ hroom
        unfold State.writeOne
        rw [hscan]
        exact hshape.written
      · apply hfar
        have hocc : (occupants Block.real (s.stash.take s.length_st)).length ≤ _ := length_occupants_le _
        rw [hholes.occupants_take, List.length_take, h.length, min_eq_left h.le] at hocc
        rw [PACE_STASH, MAX_STASH_NUM] at hroom
        omega
  · exact hfar h98

theorem Written.OWriteToStash {s : State L} (h : Written s) (Path : List (List (Block L.bytes))) :
    Written (OWriteToStash s Path) := OWriteToStash_induction (fun _ p hs => hs.writeOne p) h Path

theorem OWriteToStash_frame (s : State L) (Path : List (List (Block L.bytes))) :
    (OWriteToStash s Path).pos_map = s.pos_map ∧ (OWriteToStash s Path).OblivSK = s.OblivSK :=
  @OWriteToStash_induction L (fun t => t.pos_map = s.pos_map ∧ t.OblivSK = s.OblivSK) (fun _ _ h => h) s ⟨rfl, rfl⟩ Path

/-! ## Reading without a bound -/

def State.visible (s : State L) : List (Block L.bytes) := s.stash.take s.length_st

theorem readScan_ids (bid : Nat) (pos : Bid) (found : Bool) (blk : Block n) (slots : List (Block n)) :
    (readScan copyIf bid pos found blk slots).1.map Block.blockID = slots.map Block.blockID ∧
      (readScan copyIf bid pos found blk slots).2.2 = (found || foundIn bid slots) := by
  induction slots generalizing found blk with
  | nil => exact ⟨rfl, (Bool.or_false _).symm⟩
  | cons s slots ih =>
    obtain ⟨h1, h2⟩ := ih (found || s.blockID.val == bid) (copyIf blk { s with
      pos := OMove pos s.pos ((s.blockID.val == bid) && !found) } ((s.blockID.val == bid) && !found))
    constructor
    · simp only [readScan, List.map_cons, h1]
    · simp only [readScan, h2, foundIn, List.any_cons, Bool.or_assoc]

theorem readScan_missing {bid : Nat} (pos : Bid) (blk : Block n) {slots : List (Block n)}
    (h : foundIn bid slots = false) : readScan copyIf bid pos false blk slots = (slots, blk, false) := by
  induction slots with
  | nil => rfl
  | cons s slots ih =>
    unfold foundIn at h
    rw [List.any_cons, Bool.or_eq_false_iff] at h
    have hrest := ih h.2
    simp [readScan, h.1, hrest, copyIf]

theorem length_visible {w : State L} (h : Written w) : w.visible.length = w.length_st := h.window.length_take

theorem OReadFromStash_found {w : State L} (hw : Written w) {bid : Nat} (h : foundIn bid w.visible = true) (r : Int)
    (blk : Block L.bytes) :
    (OReadFromStash w bid r blk).1.length_st = w.length_st ∧
      (OReadFromStash w bid r blk).1.pos_map = Function.update w.pos_map bid (drawLeaf L r) ∧
      (OReadFromStash w bid r blk).1.visible.map Block.blockID = w.visible.map Block.blockID := by
  obtain ⟨hids, hfound⟩ := readScan_ids bid (drawLeaf L r) false blk w.visible
  have hlen := congrArg List.length hids
  rw [List.length_map, List.length_map, length_visible hw] at hlen
  rw [h, Bool.or_true] at hfound
  rw [OReadFromStash_eq]
  unfold readLoop
  dsimp only
  rw [← State.visible, hfound]
  refine ⟨rfl, rfl, ?_⟩
  change ((_ ++ w.stash.drop w.length_st).take w.length_st).map Block.blockID = _
  rw [List.take_left' hlen, hids]

/-- The other id in the place of one. -/
def swapId (b₁ b₂ : Nat) (c : Bid) : Bid := if c.val = b₁ then toBid b₂ else c

theorem swapId_of_ne {b₁ : Nat} (b₂ : Nat) {c : Bid} (h : c.val ≠ b₁) : swapId b₁ b₂ c = c := if_neg h

theorem addMissing_ids (nRecord : Nat) {b₁ b₂ : Nat} (hb₁ : b₁ < 65536) (hb : toBid b₁ ≠ toBid b₂) (pos : Bid)
    (i length_st : Nat) {slots : List (Block n)} (h₁ : ∀ s ∈ slots, s.blockID.val ≠ b₁)
    (h₂ : ∀ s ∈ slots, s.blockID ≠ toBid b₂) :
    (addMissing nRecord b₂ pos i length_st slots).2.1 = (addMissing nRecord b₁ pos i length_st slots).2.1 ∧
      (addMissing nRecord b₂ pos i length_st slots).1.map Block.blockID =
        ((addMissing nRecord b₁ pos i length_st slots).1.map Block.blockID).map (swapId b₁ b₂) ∧
      ∀ c ∈ (addMissing nRecord b₁ pos i length_st slots).1.map Block.blockID, c ≠ toBid b₂ := by
  have hkeep : ∀ {l : List (Block n)}, (∀ s ∈ l, s.blockID.val ≠ b₁) →
      l.map Block.blockID = (l.map Block.blockID).map (swapId b₁ b₂) := by
    intro l hl
    rw [List.map_map]
    exact List.map_congr_left fun s hs => (swapId_of_ne b₂ (hl s hs)).symm
  have hnot : ∀ {l : List (Block n)}, (∀ s ∈ l, s.blockID ≠ toBid b₂) → ∀ c ∈ l.map Block.blockID, c ≠ toBid b₂ := by
    intro l hl c hc
    obtain ⟨s, hs, rfl⟩ := List.mem_map.mp hc
    exact hl s hs
  induction slots generalizing i length_st with
  | nil => exact ⟨rfl, rfl, fun c hc => absurd hc List.not_mem_nil⟩
  | cons s slots ih =>
    have hs₁ : s.blockID.val ≠ b₁ := h₁ s List.mem_cons_self
    have hs₂ : s.blockID ≠ toBid b₂ := h₂ s List.mem_cons_self
    have hrest₁ : ∀ t ∈ slots, t.blockID.val ≠ b₁ := fun t ht => h₁ t (List.mem_cons_of_mem s ht)
    have hrest₂ : ∀ t ∈ slots, t.blockID ≠ toBid b₂ := fun t ht => h₂ t (List.mem_cons_of_mem s ht)
    have hcons : ∀ {l l' : List (Block n)}, l'.map Block.blockID = (l.map Block.blockID).map (swapId b₁ b₂) →
        (∀ c ∈ l.map Block.blockID, c ≠ toBid b₂) →
        (s :: l').map Block.blockID = ((s :: l).map Block.blockID).map (swapId b₁ b₂) ∧
          ∀ c ∈ (s :: l).map Block.blockID, c ≠ toBid b₂ := by
      intro l l' hl hl'
      refine ⟨?_, ?_⟩
      · rw [List.map_cons, hl, List.map_cons, List.map_cons, swapId_of_ne b₂ hs₁]
      · rw [List.map_cons]
        exact List.forall_mem_cons.mpr ⟨hs₂, hl'⟩
    unfold addMissing
    split_ifs
    · refine ⟨rfl, ?_, ?_⟩
      · rw [List.map_cons, List.map_cons, List.map_cons, ← hkeep hrest₁]
        congr 1
        have : (toBid b₁).val = b₁ := Nat.mod_eq_of_lt hb₁
        change toBid b₂ = swapId b₁ b₂ (toBid b₁)
        rw [swapId, if_pos this]
      · rw [List.map_cons]
        exact List.forall_mem_cons.mpr ⟨hb, hnot hrest₂⟩
    · exact ⟨rfl, hkeep h₁, hnot h₂⟩
    · obtain ⟨ih₁, ih₂, ih₃⟩ := ih (i + 1) (length_st + 8) hrest₁ hrest₂
      exact ⟨ih₁, hcons ih₂ ih₃⟩
    · obtain ⟨ih₁, ih₂, ih₃⟩ := ih (i + 1) length_st hrest₁ hrest₂
      exact ⟨ih₁, hcons ih₂ ih₃⟩
    · exact ⟨rfl, hkeep h₁, hnot h₂⟩

/-- Near the end of the stash only the slots in sight are looked at. -/
theorem addMissing_near (nRecord bid : Nat) (pos : Bid) {i length_st : Nat} (hnear : MAX_STASH_NUM < length_st + 8)
    {seen : List (Block n)} (hi : i + seen.length = length_st) (hid : List (Block n)) :
    (addMissing nRecord bid pos i length_st (seen ++ hid)).1 = (addMissing nRecord bid pos i length_st seen).1 ++ hid ∧
      (addMissing nRecord bid pos i length_st (seen ++ hid)).2.1 = length_st ∧
      (addMissing nRecord bid pos i length_st seen).1.length = seen.length := by
  induction seen generalizing i with
  | nil =>
    rw [List.length_nil, Nat.add_zero] at hi
    cases hid with
    | nil => exact ⟨rfl, rfl, rfl⟩
    | cons t hid =>
      have hlt : ¬ i < length_st := by omega
      simp [addMissing, hlt]
  | cons s seen ih =>
    rw [List.length_cons] at hi
    obtain ⟨h1, h2, h3⟩ := ih (i := i + 1) (by omega)
    have hlt : i < length_st := by omega
    cases hs : s.real with
    | false => simp [addMissing, hlt, hs]
    | true =>
      by_cases hlast : i = length_st - 1
      · simp [addMissing, hlt, hs, hnear, ← hlast]
      · simp [addMissing, hlt, hs, hlast, h1, h2, h3]

theorem ne_of_not_found {bid : Nat} {slots : List (Block n)} (h : foundIn bid slots = false) :
    ∀ s ∈ slots, s.blockID.val ≠ bid := by
  intro s hs he
  unfold foundIn at h
  rw [List.any_eq_false] at h
  exact h s hs (beq_iff_eq.mpr he)

/-- The read of a block that is out of sight adds it to the stash. -/
theorem OReadFromStash_state {w : State L} {b : Nat} (h : foundIn b w.visible = false) (r : Int) (blk : Block L.bytes) :
    (OReadFromStash w b r blk).1 =
      { w with
        stash := (addMissing L.nRecord b (drawLeaf L r) 0 w.length_st w.stash).1
        length_st := (addMissing L.nRecord b (drawLeaf L r) 0 w.length_st w.stash).2.1
        pos_map := Function.update w.pos_map b (drawLeaf L r) } := by
  rw [OReadFromStash_eq]
  unfold readLoop
  dsimp only
  rw [← State.visible, readScan_missing _ _ h]
  unfold addIfMissing State.visible
  simp only [Bool.false_eq_true, if_false, List.take_append_drop]

/-- Two blocks that are both out of sight: the states differ in the id of one slot. -/
theorem OReadFromStash_missing {w : State L} (hw : Written w) {b₁ b₂ : Nat} (hb₁ : b₁ < 65535) (hb₂ : b₂ < 65535)
    (hb : b₁ ≠ b₂) (h₁ : foundIn b₁ w.visible = false) (h₂ : foundIn b₂ w.visible = false) (r : Int)
    (blk₁ blk₂ : Block L.bytes) :
    (OReadFromStash w b₂ r blk₂).1.length_st = (OReadFromStash w b₁ r blk₁).1.length_st ∧
      (OReadFromStash w b₂ r blk₂).1.visible.map Block.blockID =
        ((OReadFromStash w b₁ r blk₁).1.visible.map Block.blockID).map (swapId b₁ b₂) ∧
      (∀ c ∈ (OReadFromStash w b₁ r blk₁).1.visible.map Block.blockID, c ≠ toBid b₂) ∧
      (OReadFromStash w b₁ r blk₁).1.pos_map = Function.update w.pos_map b₁ (drawLeaf L r) ∧
      (OReadFromStash w b₂ r blk₂).1.pos_map = Function.update w.pos_map b₂ (drawLeaf L r) := by
  have hval₁ : (toBid b₁).val = b₁ := Nat.mod_eq_of_lt (by omega)
  have hval₂ : (toBid b₂).val = b₂ := Nat.mod_eq_of_lt (by omega)
  have hne : toBid b₁ ≠ toBid b₂ := fun he => hb (by rw [← hval₁, ← hval₂, he])
  rw [OReadFromStash_state h₁, OReadFromStash_state h₂]
  unfold State.visible
  dsimp only
  rcases hw.hidden with hholes | hnear
  · have hall : ∀ b < 65535, foundIn b w.visible = false → ∀ s ∈ w.stash, s.blockID.val ≠ b := by
      intro b hlt h s hs
      rw [← List.take_append_drop w.length_st w.stash] at hs
      rcases List.mem_append.mp hs with hs | hs
      · exact ne_of_not_found h s hs
      · rw [Block.real_eq_false_iff.mp (hholes s hs)]
        change 65535 ≠ b
        omega
    obtain ⟨h3, h4, h5⟩ := addMissing_ids L.nRecord (by omega) hne (drawLeaf L r) 0 w.length_st (hall b₁ hb₁ h₁)
      (fun s hs he => hall b₂ hb₂ h₂ s hs (by rw [he, hval₂]))
    refine ⟨h3, ?_, ?_, rfl, rfl⟩
    · rw [h3, List.map_take, h4, List.map_take, List.map_take]
    · intro c hc
      rw [List.map_take] at hc
      exact h5 c (List.mem_of_mem_take hc)
  · have hnear' : MAX_STASH_NUM < w.length_st + 8 := by
      rw [MAX_STASH_NUM]
      omega
    have hsplit := fun b => addMissing_near L.nRecord b (drawLeaf L r) hnear'
      (show 0 + w.visible.length = w.length_st by rw [Nat.zero_add, length_visible hw]) (w.stash.drop w.length_st)
    have hstash : w.visible ++ w.stash.drop w.length_st = w.stash := List.take_append_drop _ _
    rw [hstash] at hsplit
    obtain ⟨h3, h4, h5⟩ := addMissing_ids L.nRecord (by omega) hne (drawLeaf L r) 0 w.length_st (ne_of_not_found h₁)
      (fun s hs he => ne_of_not_found h₂ s hs (by rw [he, hval₂]))
    have htake : ∀ b, ((addMissing L.nRecord b (drawLeaf L r) 0 w.length_st w.stash).1).take w.length_st =
        (addMissing L.nRecord b (drawLeaf L r) 0 w.length_st w.visible).1 := by
      intro b
      rw [(hsplit b).1]
      exact List.take_left' ((hsplit b).2.2.trans (length_visible hw))
    rw [(hsplit b₁).2.1, (hsplit b₂).2.1, htake, htake]
    exact ⟨rfl, h4, h5, rfl, rfl⟩

end FOSketch.Oram
