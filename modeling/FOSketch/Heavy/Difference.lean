import FOSketch.Heavy.Delta

/-!
# `ODelta` on sizes of 32 bits

`ODelta` takes the difference of two sizes as `int`s, so a difference of more than `2 ^ 31` comes out as what is left to
`2 ^ 32` (`absDelta_val_eq`). All other parts are right for every size: an entry of the first list meets at most one entry
of the second, and the entries that met are the ones that go (`ODelta_eq_iff`).
-/

namespace FOSketch.Heavy

/-- No flow occurs twice, and none has the id of a dummy. -/
structure Flows (l : List Item) : Prop where
  distinct : (l.map Item.flowID).Nodup
  not_dummy : ∀ x ∈ l, x.flowID ≠ DUMMY_FLOW

theorem Flows.of_cons {x : Item} {l : List Item} (h : Flows (x :: l)) : Flows l :=
  ⟨(List.nodup_cons.mp h.distinct).2, fun y hy => h.not_dummy y (List.mem_cons_of_mem x hy)⟩

theorem Flows.ne_of_mem {x y : Item} {l : List Item} (h : Flows (x :: l)) (hy : y ∈ l) : y.flowID ≠ x.flowID := by
  intro he
  apply (List.nodup_cons.mp h.distinct).1
  rw [← he]
  exact List.mem_map_of_mem hy

/-! ## What is meant -/

def differ (y x : Item) : Item :=
  if y.size = x.size then dummyItem else ⟨y.flowID, Fin.ofNat 4294967296 (change y.size.val x.size.val)⟩

/-- What an entry of the first list is to become. -/
def deltaFirst (L2 : List Item) (y : Item) : Item :=
  match L2.find? fun x => x.flowID == y.flowID with
  | some x => differ y x
  | none => y

/-- What an entry of the second list is to become. -/
def deltaSecond (L1 : List Item) (x : Item) : Item := if L1.any fun y => y.flowID == x.flowID then dummyItem else x

/-! ## What the loops do -/

/-- An entry of the first list is rewritten once, by the entry of the second list with its flow. -/
theorem matched_eq {L2 : List Item} (h : Flows L2) (y : Item) :
    matched L2 y =
      match L2.find? fun x => x.flowID == y.flowID with
      | some x => deltaTurn 1 x y
      | none => y := by
  induction L2 with
  | nil => rfl
  | cons x L2 ih =>
    have hstep : matched (x :: L2) y = matched L2 (deltaTurn 1 x y) := rfl
    rw [hstep]
    by_cases he : x.flowID = y.flowID
    · have hp : (x.flowID == y.flowID) = true := beq_iff_eq.mpr he
      simp only [List.find?_cons, hp]
      apply matched_of_absent
      intro z hz
      rw [deltaTurn_of_eq he]
      split_ifs
      · exact h.not_dummy z (List.mem_cons_of_mem x hz)
      · exact fun hzy => h.ne_of_mem hz (hzy.trans he.symm)
    · have hp : (x.flowID == y.flowID) = false := beq_eq_false_iff_ne.mpr he
      simp only [List.find?_cons, hp]
      rw [deltaTurn_of_ne 1 he, ih h.of_cons]

theorem any_deltaTurn {x z : Item} (hzx : z.flowID ≠ x.flowID) (hz : z.flowID ≠ DUMMY_FLOW) (L1 : List Item) :
    ((L1.map (deltaTurn 1 x)).any fun y => y.flowID == z.flowID) = L1.any fun y => y.flowID == z.flowID := by
  have hturn : ∀ y : Item, ((deltaTurn 1 x y).flowID == z.flowID) = (y.flowID == z.flowID) := by
    intro y
    by_cases he : x.flowID = y.flowID
    · have hy : (y.flowID == z.flowID) = false := beq_eq_false_iff_ne.mpr (by rw [← he]; exact Ne.symm hzx)
      rw [hy, deltaTurn_of_eq he]
      split_ifs
      · exact beq_eq_false_iff_ne.mpr (Ne.symm hz)
      · exact hy
    · rw [deltaTurn_of_ne 1 he]
  rw [List.any_map]
  exact congrArg L1.any (funext hturn)

theorem deltaLoop_snd {L1 L2 : List Item} (h : Flows L2) :
    (deltaLoop 1 L1 L2).2 = L2.map fun x => L1.any fun y => y.flowID == x.flowID := by
  induction L2 generalizing L1 with
  | nil => rfl
  | cons x L2 ih =>
    have hrest : ∀ z ∈ L2, ((L1.map (deltaTurn 1 x)).any fun y => y.flowID == z.flowID) =
        L1.any fun y => y.flowID == z.flowID := fun z hz =>
      any_deltaTurn (h.ne_of_mem hz) (h.not_dummy z (List.mem_cons_of_mem x hz)) L1
    rw [deltaLoop, List.map_cons, ih h.of_cons, List.map_congr_left hrest]

theorem ODelta_snd {L1 L2 : List Item} (h : Flows L2) : (ODelta L1 L2 1).2 = L2.map (deltaSecond L1) := by
  unfold ODelta
  dsimp only
  rw [deltaLoop_snd h, List.zipWith_map_right, List.zipWith_self]
  rfl

/-! ## The differences -/

/-- One pair of entries: the difference fits half of the range. -/
theorem deltaTurn_eq_differ_iff {x y : Item} (h : x.flowID = y.flowID) :
    deltaTurn 1 x y = differ y x ↔ change y.size.val x.size.val ≤ 2147483648 := by
  have hx := x.size.isLt
  have hy := y.size.isLt
  have habs := absDelta_val_eq y.size x.size
  have hch : change y.size.val x.size.val < 4294967296 := by
    unfold change
    omega
  rw [deltaTurn_of_eq h]
  unfold differ
  by_cases he : y.size = x.size
  · have hzero : change y.size.val x.size.val = 0 := by
      rw [he]
      simp [change]
    rw [hzero, Nat.zero_min] at habs
    rw [if_pos he, if_pos habs, hzero]
    exact iff_of_true rfl (Nat.zero_le _)
  · have hpos : change y.size.val x.size.val ≠ 0 := by
      intro h0
      apply he
      apply Fin.ext
      unfold change at h0
      omega
    rw [if_neg he, if_neg (by omega), Item.mk.injEq, and_iff_right rfl, Fin.ext_iff, Fin.val_ofNat,
      Nat.mod_eq_of_lt hch, habs]
    omega

/-- **`ODelta` is right** exactly if no flow changed by more than `2 ^ 31`. -/
theorem ODelta_eq_iff (L1 : List Item) {L2 : List Item} (h2 : Flows L2) :
    ODelta L1 L2 1 = (L1.map (deltaFirst L2), L2.map (deltaSecond L1)) ↔
      ∀ y ∈ L1, ∀ x ∈ L2, y.flowID = x.flowID → change y.size.val x.size.val ≤ 2147483648 := by
  have hfst : (ODelta L1 L2 1).1 = L1.map (matched L2) := deltaLoop_fst L1 L2
  rw [Prod.ext_iff, ODelta_snd h2, hfst, and_iff_left rfl, List.map_inj_left]
  refine forall₂_congr fun y _ => ?_
  rw [matched_eq h2, deltaFirst]
  cases hf : L2.find? fun x => x.flowID == y.flowID with
  | none =>
    rw [List.find?_eq_none] at hf
    exact iff_of_true rfl fun x hx he => absurd (beq_iff_eq.mpr he.symm) (hf x hx)
  | some x =>
    have hid : x.flowID = y.flowID := beq_iff_eq.mp (List.find?_some hf :)
    have hx : x ∈ L2 := List.mem_of_find?_eq_some hf
    rw [deltaTurn_eq_differ_iff hid]
    constructor
    · intro hle z hz he
      obtain rfl : z = x := List.inj_on_of_nodup_map h2.distinct hz hx (he.symm.trans hid.symm)
      exact hle
    · exact fun hall => hall x hx hid.symm

theorem ODelta_eq_half :
    ODelta [⟨1, 2147483648⟩, ⟨2, 5⟩, ⟨3, 7⟩] [⟨3, 7⟩, ⟨1, 0⟩, ⟨4, 9⟩] 1 =
      ([⟨1, 2147483648⟩, ⟨2, 5⟩, dummyItem], [dummyItem, dummyItem, ⟨4, 9⟩]) :=
  (ODelta_eq_iff _ ⟨by decide, by decide⟩).mpr (by decide)

/-- A flow that grew by `2 ^ 31 + 1` seems to have grown by less. -/
theorem ODelta_wraps :
    let L1 : List Item := [⟨1, 2147483649⟩]
    let L2 : List Item := [⟨1, 0⟩]
    Flows L1 ∧ Flows L2 ∧ ODelta L1 L2 1 = ([⟨1, 2147483647⟩], [dummyItem]) ∧
      ODelta L1 L2 1 ≠ (L1.map (deltaFirst L2), L2.map (deltaSecond L1)) :=
  ⟨⟨by decide, by decide⟩, ⟨by decide, by decide⟩, by decide +kernel, by decide +kernel⟩

end FOSketch.Heavy
