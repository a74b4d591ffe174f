import FOSketch.Common

/-!
# `ODelta`

Two lists of items are matched by their flow ids. What is left, dummies and items of size `0` apart, is one item for every
flow whose sizes in the two lists differ, with the difference as its size (`mem_ODelta_iff`, `ODelta_pairwise`).
-/

namespace FOSketch.Heavy

/-! ## The routine -/

def toInt (x : U32) : Int := Int.bmod x.val 4294967296

/-- `abs((int)x - (int)y)`, where the difference wraps. -/
def absDelta (x y : U32) : U32 := Fin.ofNat 4294967296 (toInt32 (toInt x - toInt y)).natAbs

def dummyItem : Item := ⟨DUMMY_FLOW, 0⟩

/-- The inner loop for `L1[j]`, here `y`, against `L2[i]`, here `x`. -/
def deltaTurn (gamm : Nat) (x y : Item) : Item :=
  let isMatch := y.flowID == x.flowID
  let y := { y with size := OMove (absDelta y.size x.size) y.size isMatch }
  OMove dummyItem y (isMatch && decide (y.size.val < gamm))

/-- The outer loop: `L1` and `Match`. -/
def deltaLoop (gamm : Nat) : List Item → List Item → List Item × List Bool
  | L1, [] => (L1, [])
  | L1, x :: L2 =>
    let r := deltaLoop gamm (L1.map (deltaTurn gamm x)) L2
    (r.1, L1.any (fun y => y.flowID == x.flowID) :: r.2)

/-- `gamm` is `1` at every call. -/
def ODelta (L1 L2 : List Item) (gamm : Nat) : List Item × List Item :=
  let r := deltaLoop gamm L1 L2
  (r.1, List.zipWith (fun x isMatch => OMove dummyItem x isMatch) L2 r.2)

/-! ## Recorded flows -/

/-- A list of recorded flows: an entry without a flow has the id `0` and no size. -/
structure Recorded (l : List Item) : Prop where
  distinct : l.Pairwise fun x y => x.flowID ≠ 0 → x.flowID ≠ y.flowID
  not_dummy : ∀ x ∈ l, x.flowID ≠ DUMMY_FLOW
  empty : ∀ x ∈ l, x.flowID = 0 → x.size = 0
  size_lt : ∀ x ∈ l, x.size.val < 2147483648

instance (l : List Item) : Decidable (Recorded l) :=
  decidable_of_iff (l.Pairwise (fun x y => x.flowID ≠ 0 → x.flowID ≠ y.flowID) ∧ (∀ x ∈ l, x.flowID ≠ DUMMY_FLOW) ∧
    (∀ x ∈ l, x.flowID = 0 → x.size = 0) ∧ ∀ x ∈ l, x.size.val < 2147483648)
    ⟨fun ⟨h1, h2, h3, h4⟩ => ⟨h1, h2, h3, h4⟩, fun h => ⟨h.distinct, h.not_dummy, h.empty, h.size_lt⟩⟩

def sizeOf (l : List Item) (f : U32) : Nat :=
  match l.find? fun x => x.flowID == f with
  | some x => x.size.val
  | none => 0

def change (a b : Nat) : Nat := ((a : Int) - b).natAbs

theorem Recorded.of_cons {x : Item} {l : List Item} (h : Recorded (x :: l)) : Recorded l :=
  ⟨(List.pairwise_cons.mp h.distinct).2, fun y hy => h.not_dummy y (List.mem_cons_of_mem x hy),
    fun y hy => h.empty y (List.mem_cons_of_mem x hy), fun y hy => h.size_lt y (List.mem_cons_of_mem x hy)⟩

theorem Recorded.sublist {l r : List Item} (h : Recorded l) (hs : r.Sublist l) : Recorded r :=
  ⟨h.distinct.sublist hs, fun x hx => h.not_dummy x (hs.subset hx), fun x hx => h.empty x (hs.subset hx),
    fun x hx => h.size_lt x (hs.subset hx)⟩

theorem Recorded.perm {l r : List Item} (h : Recorded l) (hp : r.Perm l) : Recorded r := by
  refine ⟨(hp.pairwise_iff ?_).mpr h.distinct, fun x hx => h.not_dummy x (hp.mem_iff.mp hx),
    fun x hx => h.empty x (hp.mem_iff.mp hx), fun x hx => h.size_lt x (hp.mem_iff.mp hx)⟩
  intro x y hxy hy he
  exact hxy (he ▸ hy) he.symm

@[simp] theorem sizeOf_nil (f : U32) : sizeOf [] f = 0 := rfl

theorem sizeOf_cons_self (x : Item) (l : List Item) : sizeOf (x :: l) x.flowID = x.size.val := by
  simp [sizeOf]

theorem sizeOf_cons_of_ne {x : Item} {f : U32} (h : x.flowID ≠ f) (l : List Item) : sizeOf (x :: l) f = sizeOf l f := by
  unfold sizeOf
  rw [List.find?_cons_of_neg (by rw [beq_iff_eq]; exact h)]

theorem sizeOf_of_absent {l : List Item} {f : U32} (h : ∀ x ∈ l, x.flowID ≠ f) : sizeOf l f = 0 := by
  induction l with
  | nil => rfl
  | cons x l ih =>
    rw [sizeOf_cons_of_ne (h x List.mem_cons_self), ih fun y hy => h y (List.mem_cons_of_mem x hy)]

theorem sizeOf_of_mem {l : List Item} (h : Recorded l) {x : Item} (hx : x ∈ l) : sizeOf l x.flowID = x.size.val := by
  induction l with
  | nil => exact absurd hx List.not_mem_nil
  | cons y l ih =>
    rcases List.mem_cons.mp hx with rfl | hxl
    · exact sizeOf_cons_self x l
    · by_cases he : y.flowID = x.flowID
      · have hzero : y.flowID = 0 := by
          by_contra hne
          exact (List.pairwise_cons.mp h.distinct).1 x hxl hne he
        rw [← he, sizeOf_cons_self, h.empty y List.mem_cons_self hzero, h.empty x hx (he ▸ hzero)]
      · rw [sizeOf_cons_of_ne he, ih h.of_cons hxl]

theorem exists_mem_of_sizeOf {l : List Item} {f : U32} (h : sizeOf l f ≠ 0) : ∃ x ∈ l, x.flowID = f := by
  by_contra hno
  push Not at hno
  exact h (sizeOf_of_absent hno)

theorem sizeOf_zero {l : List Item} (h : Recorded l) : sizeOf l 0 = 0 := by
  by_contra hne
  obtain ⟨x, hx, he⟩ := exists_mem_of_sizeOf hne
  rw [← he, sizeOf_of_mem h hx, h.empty x hx he] at hne
  exact hne rfl

theorem sizeOf_perm {l r : List Item} (h : Recorded l) (hp : r.Perm l) (f : U32) : sizeOf r f = sizeOf l f := by
  by_cases hf : ∃ x ∈ l, x.flowID = f
  · obtain ⟨x, hx, rfl⟩ := hf
    rw [sizeOf_of_mem h hx, sizeOf_of_mem (h.perm hp) (hp.mem_iff.mpr hx)]
  · push Not at hf
    rw [sizeOf_of_absent hf, sizeOf_of_absent fun x hx => hf x (hp.mem_iff.mp hx)]

/-- The routine measures the shorter way round on 32 bits. -/
theorem absDelta_val_eq (x y : U32) :
    (absDelta x y).val = min (change x.val y.val) (4294967296 - change x.val y.val) := by
  have hx := x.isLt
  have hy := y.isLt
  have hwrap : (Int.bmod ((x.val : Int) - y.val) 4294967296).natAbs =
      min (change x.val y.val) (4294967296 - change x.val y.val) := by
    rw [Int.bmod_def]
    unfold change
    split_ifs
    · omega
    · omega
  unfold absDelta toInt32 toInt
  rw [Fin.val_ofNat, Int.bmod_sub_bmod, Int.sub_bmod_bmod, hwrap]
  exact Nat.mod_eq_of_lt (by omega)

theorem absDelta_val {x y : U32} (hx : x.val < 2147483648) (hy : y.val < 2147483648) :
    (absDelta x y).val = change x.val y.val := by
  rw [absDelta_val_eq]
  unfold change
  omega

/-! ## The first list -/

/-- An entry of the first list when all entries of the second were compared with it. -/
def matched (L2 : List Item) (y : Item) : Item := L2.foldl (fun y x => deltaTurn 1 x y) y

theorem deltaTurn_of_ne (gamm : Nat) {x y : Item} (h : x.flowID ≠ y.flowID) : deltaTurn gamm x y = y := by
  have hb : (y.flowID == x.flowID) = false := beq_eq_false_iff_ne.mpr (Ne.symm h)
  simp [deltaTurn, hb]

theorem deltaTurn_of_eq {x y : Item} (h : x.flowID = y.flowID) :
    deltaTurn 1 x y = if (absDelta y.size x.size).val = 0 then dummyItem else ⟨y.flowID, absDelta y.size x.size⟩ := by
  simp only [deltaTurn, h, beq_self_eq_true, OMove_true, Bool.true_and, Nat.lt_one_iff]
  by_cases hz : (absDelta y.size x.size).val = 0
  · rw [if_pos hz, decide_eq_true hz, OMove_true]
  · rw [if_neg hz, decide_eq_false hz, OMove_false]

theorem matched_of_absent {L2 : List Item} {y : Item} (h : ∀ x ∈ L2, x.flowID ≠ y.flowID) : matched L2 y = y := by
  unfold matched
  induction L2 with
  | nil => rfl
  | cons x L2 ih =>
    rw [List.foldl_cons, deltaTurn_of_ne 1 (h x List.mem_cons_self), ih fun z hz => h z (List.mem_cons_of_mem x hz)]

theorem matched_dummy {L2 : List Item} (h : Recorded L2) : matched L2 dummyItem = dummyItem :=
  matched_of_absent h.not_dummy

/-- An entry of the first list ends as the difference of the sizes, or without a size. -/
theorem matched_spec {L2 : List Item} (h : Recorded L2) {y : Item} (hlt : y.size.val < 2147483648)
    (hzero : y.flowID = 0 → y.size = 0) :
    if change y.size.val (sizeOf L2 y.flowID) = 0 then (matched L2 y).size = 0
    else (matched L2 y).flowID = y.flowID ∧ (matched L2 y).size.val = change y.size.val (sizeOf L2 y.flowID) := by
  induction L2 with
  | nil =>
    rw [sizeOf_nil]
    have hch : change y.size.val 0 = y.size.val := by simp [change]
    rw [hch]
    split_ifs with h0
    · exact Fin.ext h0
    · exact ⟨rfl, rfl⟩
  | cons x L2 ih =>
    have hstep : matched (x :: L2) y = matched L2 (deltaTurn 1 x y) := rfl
    by_cases he : x.flowID = y.flowID
    · rw [hstep, deltaTurn_of_eq he, ← he, sizeOf_cons_self]
      have hval := absDelta_val hlt (h.size_lt x List.mem_cons_self)
      rw [hval]
      split_ifs with h0
      · rw [matched_dummy h.of_cons]
        rfl
      · have hne : x.flowID ≠ 0 := by
          intro hx
          rw [h.empty x List.mem_cons_self hx, hzero (he ▸ hx)] at h0
          exact h0 rfl
        have hrest : ∀ z ∈ L2, z.flowID ≠ x.flowID := fun z hz =>
          Ne.symm ((List.pairwise_cons.mp h.distinct).1 z hz hne)
        have hsame : matched L2 ⟨x.flowID, absDelta y.size x.size⟩ = ⟨x.flowID, absDelta y.size x.size⟩ :=
          matched_of_absent hrest
        rw [hsame]
        exact ⟨rfl, hval⟩
    · rw [hstep, deltaTurn_of_ne 1 he, sizeOf_cons_of_ne he]
      exact ih h.of_cons

theorem deltaLoop_fst (L1 L2 : List Item) : (deltaLoop 1 L1 L2).1 = L1.map (matched L2) := by
  induction L2 generalizing L1 with
  | nil => exact (List.map_id _).symm
  | cons x L2 ih =>
    rw [deltaLoop, ih, List.map_map]
    rfl

/-! ## The second list -/

theorem mem_second_iff {L1 L2 : List Item} (h : Recorded L2) {z : Item} (hz : z.size ≠ 0) :
    z ∈ (ODelta L1 L2 1).2 ↔ z ∈ L2 ∧ ∀ y ∈ L1, y.flowID ≠ z.flowID := by
  unfold ODelta
  dsimp only
  induction L2 generalizing L1 with
  | nil => simp
  | cons x L2 ih =>
    have hdummy : z ≠ dummyItem := fun he => hz (by rw [he]; rfl)
    have hrest := @ih (L1.map (deltaTurn 1 x)) h.of_cons
    rw [deltaLoop, List.zipWith_cons_cons, List.mem_cons, hrest]
    by_cases hzx : z = x
    · subst hzx
      have hne : z.flowID ≠ 0 := fun h0 => hz (h.empty z List.mem_cons_self h0)
      have hnot : z ∉ L2 := fun hm => (List.pairwise_cons.mp h.distinct).1 z hm hne rfl
      have hhead : z = OMove dummyItem z (L1.any fun y => y.flowID == z.flowID) ↔ ∀ y ∈ L1, y.flowID ≠ z.flowID := by
        cases hany : L1.any fun y => y.flowID == z.flowID with
        | true =>
          rw [OMove_true]
          refine iff_of_false hdummy fun hall => ?_
          obtain ⟨y, hy, he⟩ := List.any_eq_true.mp hany
          exact hall y hy (beq_iff_eq.mp he)
        | false =>
          rw [OMove_false]
          rw [List.any_eq_false] at hany
          exact iff_of_true rfl fun y hy he => hany y hy (beq_iff_eq.mpr he)
      rw [hhead]
      simp [hnot]
    · have hhead : ¬ z = OMove dummyItem x (L1.any fun y => y.flowID == x.flowID) := by
        cases L1.any fun y => y.flowID == x.flowID with
        | true => exact hdummy
        | false => exact hzx
      rw [or_iff_right hhead, List.mem_cons, or_iff_right hzx]
      refine and_congr_right fun hmem => ?_
      have hne : z.flowID ≠ 0 := fun h0 => hz (h.empty z (List.mem_cons_of_mem x hmem) h0)
      have hxz : x.flowID ≠ z.flowID := fun he =>
        (List.pairwise_cons.mp h.distinct).1 z hmem (he ▸ hne) he
      have hzd : z.flowID ≠ DUMMY_FLOW := h.not_dummy z (List.mem_cons_of_mem x hmem)
      rw [List.forall_mem_map]
      refine forall₂_congr fun y _ => not_congr ?_
      by_cases he : x.flowID = y.flowID
      · rw [deltaTurn_of_eq he]
        split_ifs
        · exact iff_of_false (Ne.symm hzd) (by rw [← he]; exact hxz)
        · rfl
      · rw [deltaTurn_of_ne 1 he]

/-! ## Both lists -/

/-- **Every change is in one of the lists**, and nothing else has a size. -/
theorem mem_ODelta_iff {L1 L2 : List Item} (h1 : Recorded L1) (h2 : Recorded L2) {z : Item} (hz : z.size ≠ 0) :
    z ∈ (ODelta L1 L2 1).1 ++ (ODelta L1 L2 1).2 ↔ z.size.val = change (sizeOf L1 z.flowID) (sizeOf L2 z.flowID) := by
  have hpos : z.size.val ≠ 0 := fun h0 => hz (Fin.ext h0)
  rw [List.mem_append, mem_second_iff h2 hz]
  have hfirst : (ODelta L1 L2 1).1 = L1.map (matched L2) := deltaLoop_fst L1 L2
  rw [hfirst, List.mem_map]
  constructor
  · rintro (⟨y, hy, rfl⟩ | ⟨hm, hno⟩)
    · have hspec := matched_spec h2 (h1.size_lt y hy) (h1.empty y hy)
      split_ifs at hspec with h0
      · exact absurd hspec hz
      · rw [hspec.1, hspec.2, sizeOf_of_mem h1 hy]
    · rw [sizeOf_of_absent hno, sizeOf_of_mem h2 hm]
      simp [change]
  · intro he
    by_cases hy : ∃ y ∈ L1, y.flowID = z.flowID
    · obtain ⟨y, hy, hid⟩ := hy
      refine Or.inl ⟨y, hy, ?_⟩
      have hspec := matched_spec h2 (h1.size_lt y hy) (h1.empty y hy)
      rw [← sizeOf_of_mem h1 hy, hid, ← he, if_neg hpos] at hspec
      obtain ⟨h3, h4⟩ := hspec
      cases z
      exact congrArg₂ Item.mk h3 (Fin.ext h4)
    · push Not at hy
      rw [sizeOf_of_absent hy] at he
      have hsize : sizeOf L2 z.flowID = z.size.val := by
        rw [he]
        simp [change]
      obtain ⟨x, hx, hid⟩ := exists_mem_of_sizeOf (l := L2) (f := z.flowID) (by rw [hsize]; exact hpos)
      have hxz : x = z := by
        rw [← hid, sizeOf_of_mem h2 hx] at hsize
        cases x
        cases z
        exact congrArg₂ Item.mk hid (Fin.ext hsize)
      exact Or.inr ⟨hxz ▸ hx, hy⟩

/-- Different entries with a size have different flows. -/
def Apart (x y : Item) : Prop := x.size ≠ 0 → y.size ≠ 0 → x.flowID ≠ y.flowID

theorem matched_flowID {L1 L2 : List Item} (h1 : Recorded L1) (h2 : Recorded L2) {y : Item} (hy : y ∈ L1)
    (hsize : (matched L2 y).size ≠ 0) : (matched L2 y).flowID = y.flowID ∧ y.flowID ≠ 0 := by
  have hspec := matched_spec h2 (h1.size_lt y hy) (h1.empty y hy)
  split_ifs at hspec with h0
  · exact absurd hspec hsize
  · refine ⟨hspec.1, fun hzero => h0 ?_⟩
    rw [h1.empty y hy hzero, hzero, sizeOf_zero h2]
    rfl

theorem zipWith_pairwise {l : List Item} (h : Recorded l) (ms : List Bool) :
    (List.zipWith (fun x isMatch => OMove dummyItem x isMatch) l ms).Pairwise Apart := by
  induction l generalizing ms with
  | nil => simp
  | cons x l ih =>
    cases ms with
    | nil => simp
    | cons m ms =>
      rw [List.zipWith_cons_cons, List.pairwise_cons]
      refine ⟨fun z hz hx hz' => ?_, ih h.of_cons ms⟩
      cases m with
      | true => exact absurd rfl hx
      | false =>
        rw [OMove_false] at hx ⊢
        have hne : x.flowID ≠ 0 := fun h0 => hx (h.empty x List.mem_cons_self h0)
        obtain ⟨k, hk⟩ := List.mem_iff_getElem?.mp hz
        rw [List.getElem?_zipWith] at hk
        cases hl : l[k]? with
        | none => simp [hl] at hk
        | some w =>
          cases hm : ms[k]? with
          | none => simp [hl, hm] at hk
          | some b =>
            obtain rfl : OMove dummyItem w b = z := by simpa [hl, hm] using hk
            cases b with
            | true => exact absurd rfl hz'
            | false => exact (List.pairwise_cons.mp h.distinct).1 w (List.mem_of_getElem? hl) hne

theorem ODelta_pairwise {L1 L2 : List Item} (h1 : Recorded L1) (h2 : Recorded L2) :
    ((ODelta L1 L2 1).1 ++ (ODelta L1 L2 1).2).Pairwise Apart := by
  have hfirst : (ODelta L1 L2 1).1 = L1.map (matched L2) := deltaLoop_fst L1 L2
  rw [List.pairwise_append]
  refine ⟨?_, zipWith_pairwise h2 _, ?_⟩
  · rw [hfirst, List.pairwise_map]
    refine h1.distinct.imp_of_mem fun {x y} hx hy hxy hsx hsy => ?_
    obtain ⟨h3, h4⟩ := matched_flowID h1 h2 hx hsx
    obtain ⟨h5, -⟩ := matched_flowID h1 h2 hy hsy
    rw [h3, h5]
    exact hxy h4
  · intro x hx y hy hsx hsy
    rw [hfirst] at hx
    obtain ⟨w, hw, rfl⟩ := List.mem_map.mp hx
    rw [(matched_flowID h1 h2 hw hsx).1]
    exact ((mem_second_iff h2 hsy).mp hy).2 w hw

@[simp] theorem length_deltaLoop_snd (gamm : Nat) (L1 L2 : List Item) : (deltaLoop gamm L1 L2).2.length = L2.length := by
  induction L2 generalizing L1 with
  | nil => rfl
  | cons x L2 ih => rw [deltaLoop, List.length_cons, ih, List.length_cons]

@[simp] theorem length_ODelta_fst (L1 L2 : List Item) : (ODelta L1 L2 1).1.length = L1.length := by
  have hfirst : (ODelta L1 L2 1).1 = L1.map (matched L2) := deltaLoop_fst L1 L2
  rw [hfirst, List.length_map]

@[simp] theorem length_ODelta_snd (L1 L2 : List Item) : (ODelta L1 L2 1).2.length = L2.length := by
  simp [ODelta]

end FOSketch.Heavy
