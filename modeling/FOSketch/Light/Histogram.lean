import FOSketch.Heavy.Prepare

/-!
# The distribution of the light counters

`OAdd256` adds to one of 256 counters by adding an eight-lane vector to each of 32 groups: to the group of the index the
vector that holds the value in the lane of the index, to the others the zero vector. The loops over a byte array count every
value, whichever way they find the counter (`histogram_loops`).
-/

namespace FOSketch.Light

open Heavy Memory

/-! ## The loops -/

/-- `VPADDD` on the eight entries from `8 * i` on. -/
def addLanes (add : Nat → U32) (i : Nat) (pArry : Nat → U32) : Nat → U32 := fun k =>
  if 8 * i ≤ k ∧ k < 8 * i + 8 then pArry k + add (k - 8 * i) else pArry k

def OAdd256_groups (val : U32) (index : Bid) (pArry : Nat → U32) : Nat → U32 :=
  let subInd := toByte (index.val % 8)
  let groupInd := toByte (index.val / 8)
  let epoch := 256 / 8
  let add0 := fun _ : Nat => (0 : U32)
  let add1 := fun i : Nat => OMove val 0 (i == subInd.val)
  (List.range epoch).foldl (fun pArry i =>
    let cond := i == groupInd.val
    addLanes (if cond then add1 else add0) i pArry) pArry

def ClearCountLight (CountLight : Nat → U32) : Nat → U32 := fun k => if k < 256 then 0 else CountLight k

def TestLightCountDist_NO (px : Nat → Byte) (size : Nat) (CountLight : Nat → U32) : Nat → U32 :=
  (List.range size).foldl (fun CountLight j =>
    Function.update CountLight (px j).val (CountLight (px j).val + 1)) CountLight

def TestLightCountDist_AVX (px : Nat → Byte) (size : Nat) (CountLight : Nat → U32) : Nat → U32 :=
  (List.range size).foldl (fun CountLight j => OAdd256_groups 1 (toBid (px j).val) CountLight) CountLight

def TestLightCountDist (px : Nat → Byte) (size : Nat) (CountLight : Nat → U32) : Nat → U32 :=
  (List.range size).foldl (fun CountLight i =>
    (List.range 256).foldl (fun CountLight j =>
      Function.update CountLight j (CountLight j + OMove 1 0 (j == (px i).val))) CountLight) CountLight

def prepareCountLight (px : Nat → Byte) (size : Nat) (CountLight : Nat → U32) : Nat → U32 :=
  (List.range size).foldl (fun pArry i => OAdd256 1 (px i).val pArry) CountLight

/-! ## One turn -/

/-- The turn for the byte `x` adds one to the counter of `x` and leaves the others. -/
def CountsByte (turn : (Nat → U32) → Nat → U32) (x : Byte) : Prop :=
  ∀ CountLight, ∀ v : Byte, turn CountLight v.val = CountLight v.val + if v = x then 1 else 0

theorem countsByte_update (x : Byte) :
    CountsByte (fun CountLight => Function.update CountLight x.val (CountLight x.val + 1)) x := by
  intro CountLight v
  dsimp only
  by_cases hv : v = x
  · rw [hv, Function.update_self, if_pos rfl]
  · rw [Function.update_of_ne (fun h => hv (Fin.ext h)), if_neg hv, add_zero]

theorem countsByte_OAdd256 (x : Byte) : CountsByte (OAdd256 1 x.val) x := by
  intro CountLight v
  have hdiv := Nat.div_add_mod v.val 8
  have hdiv' := Nat.div_add_mod x.val 8
  unfold OAdd256
  by_cases hv : v = x
  · rw [hv, if_pos ⟨x.isLt, rfl⟩, if_pos rfl, beq_self_eq_true, OMove_true]
  · have hne : v.val ≠ x.val := fun h => hv (Fin.ext h)
    rw [if_neg hv, add_zero]
    split_ifs with hgroup
    · have hlane : (v.val % 8 == x.val % 8) = false := by
        rw [beq_eq_false_iff_ne]
        omega
      rw [hlane, OMove_false, add_zero]
    · rfl

/-- Before group `n` the groups are done, from there on they are as they were. -/
theorem foldl_groups (add : Nat → Nat → U32) (pArry : Nat → U32) (n k : Nat) :
    (List.range n).foldl (fun pArry i => addLanes (add i) i pArry) pArry k =
      if k < 8 * n then pArry k + add (k / 8) (k % 8) else pArry k := by
  induction n with
  | zero => rfl
  | succ n ih =>
    rw [List.range_succ, List.foldl_append, List.foldl_cons, List.foldl_nil, addLanes, ih]
    by_cases hlow : k < 8 * n
    · rw [if_neg (by omega), if_pos hlow, if_pos (by omega)]
    · rw [if_neg hlow]
      by_cases hk : k < 8 * (n + 1)
      · have hdiv : k / 8 = n := by omega
        have hmod : k - 8 * n = k % 8 := by omega
        rw [if_pos (by omega), if_pos hk, hdiv, hmod]
      · rw [if_neg (by omega), if_neg hk]

/-- The groups change the entry of the index only, as long as its group fits a `uint8_t`. -/
theorem OAdd256_groups_eq (val : U32) {index : Bid} (h : index.val < 2048) (pArry : Nat → U32) :
    OAdd256_groups val index pArry = OAdd256 val index.val pArry := by
  have hsub : (toByte (index.val % 8)).val = index.val % 8 := by
    rw [toByte_val]
    omega
  have hgroup : (toByte (index.val / 8)).val = index.val / 8 := by
    rw [toByte_val]
    omega
  funext k
  unfold OAdd256_groups OAdd256
  simp only [hsub, hgroup]
  rw [foldl_groups (fun i => if (i == index.val / 8) = true then _ else _)]
  by_cases hk : k < 256
  · rw [if_pos (by omega)]
    by_cases hg : k / 8 = index.val / 8
    · rw [if_pos (beq_iff_eq.mpr hg), if_pos ⟨hk, hg⟩]
    · rw [if_neg (by simpa using hg), if_neg (fun h => hg h.2), add_zero]
  · rw [if_neg (by omega), if_neg (fun h => hk h.1)]

theorem countsByte_groups (x : Byte) : CountsByte (OAdd256_groups 1 (toBid x.val)) x := by
  have hval : (toBid x.val).val = x.val := by
    rw [toBid_val]
    omega
  intro CountLight v
  rw [OAdd256_groups_eq 1 (by rw [hval]; omega), hval]
  exact countsByte_OAdd256 x CountLight v

theorem foldl_conditional (x : Byte) (CountLight : Nat → U32) (n k : Nat) :
    (List.range n).foldl (fun CountLight j => Function.update CountLight j (CountLight j + OMove 1 0 (j == x.val)))
        CountLight k =
      CountLight k + if k < n ∧ k = x.val then 1 else 0 := by
  induction n with
  | zero => simp
  | succ n ih =>
    rw [List.range_succ, List.foldl_append, List.foldl_cons, List.foldl_nil]
    by_cases hk : k = n
    · subst hk
      rw [Function.update_self, ih, if_neg (by omega), add_zero]
      by_cases hx : k = x.val
      · rw [beq_iff_eq.mpr hx, if_pos ⟨Nat.lt_succ_self k, hx⟩, OMove_true]
      · rw [beq_eq_false_iff_ne.mpr hx, if_neg (fun h => hx h.2), OMove_false]
    · rw [Function.update_of_ne hk, ih]
      congr 1
      apply if_congr _ rfl rfl
      omega

theorem countsByte_conditional (x : Byte) :
    CountsByte (fun CountLight => (List.range 256).foldl (fun CountLight j =>
      Function.update CountLight j (CountLight j + OMove 1 0 (j == x.val))) CountLight) x := by
  intro CountLight v
  dsimp only
  rw [foldl_conditional]
  congr 1
  apply if_congr _ rfl rfl
  rw [Fin.ext_iff]
  omega

/-! ## The distribution -/

/-- The entries of `CountLight` count the values in `l`. -/
structure Histogram (l : List Byte) (CountLight : Nat → U32) : Prop where
  count : ∀ v : Byte, (CountLight v.val).val = l.count v
  total : ∑ v : Byte, (CountLight v.val).val = l.length

theorem foldl_countsByte {turn : Byte → (Nat → U32) → Nat → U32} (hturn : ∀ x, CountsByte (turn x) x)
    (px : Nat → Byte) (size : Nat) (CountLight : Nat → U32) (v : Byte) :
    (List.range size).foldl (fun CountLight j => turn (px j) CountLight) CountLight v.val =
      CountLight v.val + Fin.ofNat 4294967296 ((load px 0 size).count v) := by
  induction size with
  | zero => exact (add_zero _).symm
  | succ size ih =>
    rw [List.range_succ, List.foldl_append, List.foldl_cons, List.foldl_nil, hturn, ih, load_succ, List.count_append,
      Nat.zero_add, List.count_singleton, add_assoc]
    congr 1
    apply Fin.ext
    by_cases hv : px size = v
    · rw [if_pos hv.symm, beq_iff_eq.mpr hv, if_pos rfl, Fin.val_add, Fin.val_ofNat, Fin.val_ofNat]
      exact Nat.mod_add_mod _ _ _
    · rw [if_neg (Ne.symm hv), beq_eq_false_iff_ne.mpr hv, add_zero, if_neg Bool.false_ne_true, Nat.add_zero]

/-- **A loop of such turns** over fewer than `2 ^ 32` bytes leaves the distribution. -/
theorem histogram_foldl {turn : Byte → (Nat → U32) → Nat → U32} (hturn : ∀ x, CountsByte (turn x) x) (px : Nat → Byte)
    {size : Nat} (hsize : size < 4294967296) (CountLight : Nat → U32) :
    Histogram (load px 0 size)
      ((List.range size).foldl (fun CountLight j => turn (px j) CountLight) (ClearCountLight CountLight)) := by
  have hcount : ∀ v : Byte, ((List.range size).foldl (fun CountLight j => turn (px j) CountLight)
      (ClearCountLight CountLight) v.val).val = (load px 0 size).count v := by
    intro v
    have hle : (load px 0 size).count v ≤ size := by
      have h := List.count_le_length (a := v) (l := load px 0 size)
      rwa [length_load] at h
    rw [foldl_countsByte hturn, ClearCountLight, if_pos v.isLt, zero_add, Fin.val_ofNat]
    exact Nat.mod_eq_of_lt (hle.trans_lt hsize)
  refine ⟨hcount, ?_⟩
  rw [Finset.sum_congr rfl fun v _ => hcount v]
  have htotal := Multiset.sum_count_eq_card (s := Finset.univ) (m := (load px 0 size : Multiset Byte))
    fun v _ => Finset.mem_univ v
  simpa using htotal

def updatedLight (out : Outside) (draws : Draws) (m : Mallocs) (p2Sketch : Nat → Byte) (g : Epoch) : Nat → Byte :=
  OUpdateCUSketch_BEx (out.Hash32 (seed draws.cusHash)) m.stack m.tmpB (mergeLight p2Sketch m.light) CUSKETCH_MEM
    (load (mergedHeavy p2Sketch g) NUM_HEAVY NUM_HEAVY)

theorem histogram_evaluate (out : Outside) (draws : Draws) (m : Mallocs) (p2Sketch : Nat → Byte) (g : Epoch) :
    Histogram (load (updatedLight out draws m p2Sketch g) 0 CUSKETCH_MEM)
      (evaluate out draws m p2Sketch g).CountLight := by
  have h := histogram_foldl countsByte_OAdd256 (updatedLight out draws m p2Sketch g)
    (show CUSKETCH_MEM < 4294967296 by decide) g.CountLight
  unfold evaluate
  dsimp only
  exact h

/-- **The loops agree**: from cleared counters each leaves the distribution of the bytes. -/
theorem histogram_loops (px : Nat → Byte) {size : Nat} (hsize : size < 2 ^ 31) (CountLight : Nat → U32) :
    Histogram (load px 0 size) (prepareCountLight px size (ClearCountLight CountLight)) ∧
      Histogram (load px 0 size) (TestLightCountDist_AVX px size (ClearCountLight CountLight)) ∧
      Histogram (load px 0 size) (TestLightCountDist px size (ClearCountLight CountLight)) ∧
      Histogram (load px 0 size) (TestLightCountDist_NO px size (ClearCountLight CountLight)) := by
  have hlt : size < 4294967296 := by omega
  refine ⟨?_, ?_, ?_, ?_⟩
  · exact histogram_foldl countsByte_OAdd256 px hlt CountLight
  · exact histogram_foldl countsByte_groups px hlt CountLight
  · exact histogram_foldl countsByte_conditional px hlt CountLight
  · exact histogram_foldl countsByte_update px hlt CountLight

/-- The bytes 7, 0, 7. -/
theorem histogram_loops_three :
    let px : Nat → Byte := fun i => if i = 1 then 0 else 7
    Histogram (load px 0 3) (prepareCountLight px 3 (ClearCountLight fun _ => 9)) ∧
      Histogram (load px 0 3) (TestLightCountDist_AVX px 3 (ClearCountLight fun _ => 9)) ∧
      Histogram (load px 0 3) (TestLightCountDist px 3 (ClearCountLight fun _ => 9)) ∧
      Histogram (load px 0 3) (TestLightCountDist_NO px 3 (ClearCountLight fun _ => 9)) :=
  histogram_loops _ (by decide) _

end FOSketch.Light
