import FOSketch.Common

/-!
# `OGet`

Every epoch gathers eight words of the array, 16 apart, and adds the one in the lane and group of the index. The number of
the group is an `uint8_t`, so that from index 4096 on it is the group of another index (`OGet_eq`).
-/

namespace FOSketch.Asm

/-- `vpgatherdd` under a mask that selects all eight lanes; `none` is a read behind the array. -/
def vpgatherdd (pArry : List U32) (indexArr : Nat → Nat) : Option (Nat → U32) :=
  if (List.range 8).all fun j => indexArr j < pArry.length then some fun j => pArry.getD (indexArr j) 0 else none

def getEpoch (subInd groupInd : Byte) (pArry : List U32) (ret : U32) (i : Nat) : Option U32 := do
  let res ← vpgatherdd pArry fun j => 128 * i + subInd.val + j * 16
  pure ((List.range 8).foldl (fun ret j => ret + OMove (res j) 0 (j + i * 8 == groupInd.val)) ret)

def OGet (index : Bid) (pArry : List U32) (size : Bid) : Option U32 :=
  let subInd := toByte (index.val % 16)
  let groupInd := toByte (index.val / 16)
  let epoch := toBid (size.val ⌈/⌉ 128)
  (List.range epoch.val).foldlM (getEpoch subInd groupInd pArry) 0

theorem foldl_lanes (res : Nat → U32) (ret : U32) (base g n : Nat) :
    (List.range n).foldl (fun ret j => ret + OMove (res j) 0 (j + base == g)) ret =
      if base ≤ g ∧ g < base + n then ret + res (g - base) else ret := by
  induction n with
  | zero => exact (if_neg (by omega)).symm
  | succ n ih =>
    rw [List.range_succ, List.foldl_append, List.foldl_cons, List.foldl_nil, ih]
    by_cases hn : n + base = g
    · have hsub : g - base = n := by omega
      rw [if_neg (by omega), if_pos (by omega), beq_iff_eq.mpr hn, OMove_true, hsub]
    · have hbeq : (n + base == g) = false := beq_eq_false_iff_ne.mpr hn
      rw [hbeq, OMove_false, add_zero]
      by_cases hg : base ≤ g ∧ g < base + n
      · rw [if_pos hg, if_pos (by omega)]
      · rw [if_neg hg, if_neg (by omega)]

theorem getEpoch_eq {subInd groupInd : Byte} {pArry : List U32} {i : Nat} (hsub : subInd.val < 16)
    (hlen : 128 * (i + 1) ≤ pArry.length) (ret : U32) :
    getEpoch subInd groupInd pArry ret i =
      some (if i * 8 ≤ groupInd.val ∧ groupInd.val < i * 8 + 8 then
        ret + pArry.getD (16 * groupInd.val + subInd.val) 0 else ret) := by
  have hall : ((List.range 8).all fun j => decide (128 * i + subInd.val + j * 16 < pArry.length)) = true := by
    rw [List.all_eq_true]
    intro j hj
    rw [List.mem_range] at hj
    exact decide_eq_true (by omega)
  unfold getEpoch vpgatherdd
  rw [if_pos hall, Option.bind_eq_bind, Option.bind_some, foldl_lanes, Option.pure_def]
  split_ifs with hg
  · have hidx : 128 * i + subInd.val + (groupInd.val - i * 8) * 16 = 16 * groupInd.val + subInd.val := by omega
    exact congrArg (fun k => some (ret + pArry.getD k 0)) hidx
  · rfl

/-- After `n` epochs the word is added if its group lies among them. -/
theorem foldlM_getEpoch {subInd groupInd : Byte} {pArry : List U32} {n : Nat} (hsub : subInd.val < 16)
    (hlen : 128 * n ≤ pArry.length) :
    (List.range n).foldlM (getEpoch subInd groupInd pArry) 0 =
      some (if groupInd.val < n * 8 then pArry.getD (16 * groupInd.val + subInd.val) 0 else 0) := by
  induction n with
  | zero => rw [if_neg (by omega)]; rfl
  | succ n ih =>
    rw [List.range_succ, List.foldlM_append, ih (by omega), Option.bind_eq_bind, Option.bind_some, List.foldlM_cons,
      getEpoch_eq hsub hlen, Option.bind_eq_bind, Option.bind_some, List.foldlM_nil, Option.pure_def]
    by_cases hlow : groupInd.val < n * 8
    · rw [if_pos hlow, if_neg (by omega), if_pos (by omega)]
    · rw [if_neg hlow]
      by_cases hg : groupInd.val < (n + 1) * 8
      · rw [if_pos (by omega), if_pos hg, zero_add]
      · rw [if_neg (by omega), if_neg hg]

/-- What `OGet` returns: the word at the index modulo 4096. -/
theorem OGet_eq {index size : Bid} {pArry : List U32} (hlen : 128 * (size.val ⌈/⌉ 128) ≤ pArry.length)
    (hindex : index < size) : OGet index pArry size = pArry[index.val % 4096]? := by
  have hlt : index.val < size.val := hindex
  have hsize := size.isLt
  have hceil := Nat.ceilDiv_eq_add_pred_div size.val 128
  have hepoch : (toBid (size.val ⌈/⌉ 128)).val = size.val ⌈/⌉ 128 := by
    rw [toBid_val, hceil]
    omega
  have hsub : (toByte (index.val % 16)).val = index.val % 16 := by
    rw [toByte_val]
    omega
  have hgroup : (toByte (index.val / 16)).val = index.val / 16 % 256 := rfl
  have hidx : 16 * (index.val / 16 % 256) + index.val % 16 = index.val % 4096 := by omega
  unfold OGet
  dsimp only
  rw [hepoch, foldlM_getEpoch (by omega) hlen, hgroup, hsub, hidx, if_pos (by omega),
    List.getElem?_eq_getElem (by omega), List.getD_eq_getElem _ _ (by omega)]

/-- **`OGet`** returns the word at the index exactly if the index is below 4096, or the word at the index modulo 4096 is the
same. -/
theorem OGet_iff {index size : Bid} {pArry : List U32} (hlen : 128 * (size.val ⌈/⌉ 128) ≤ pArry.length)
    (hindex : index < size) :
    OGet index pArry size = pArry[index.val]? ↔ index.val < 4096 ∨ pArry[index.val % 4096]? = pArry[index.val]? := by
  rw [OGet_eq hlen hindex]
  constructor
  · exact .inr
  · rintro (h | h)
    · rw [Nat.mod_eq_of_lt h]
    · exact h

def upTo (n : Nat) : List U32 := (List.range n).map fun k => Fin.ofNat 4294967296 k

theorem OGet_iff_upTo :
    OGet 100 (upTo 128) 128 = (upTo 128)[100]? ↔ 100 < 4096 ∨ (upTo 128)[100 % 4096]? = (upTo 128)[100]? :=
  OGet_iff (by simp [upTo, Nat.ceilDiv_eq_add_pred_div]) (by decide)

/-- The word at 4096 is taken for the one at 0. -/
theorem OGet_wraps :
    ¬ (∀ (index size : Bid) (pArry : List U32), 128 * (size.val ⌈/⌉ 128) ≤ pArry.length → index < size →
      OGet index pArry size = pArry[index.val]?) := by
  intro hall
  have hlen : 128 * ((4097 : Bid).val ⌈/⌉ 128) ≤ (upTo 4224).length := by
    rw [Nat.ceilDiv_eq_add_pred_div, upTo, List.length_map, List.length_range]
    decide
  have h := hall 4096 4097 (upTo 4224) hlen (by decide)
  rw [OGet_eq hlen (by decide)] at h
  simp [upTo] at h

end FOSketch.Asm
