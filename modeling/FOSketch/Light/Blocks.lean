import FOSketch.Light.Refines
import FOSketch.Memory

/-!
# The light-part update on one array of blocks

`OUpdateCUSketch_B` puts the light blocks and a block for every heavy item into one array, filled up with dummies to a power
of two. It sorts the array, lets the blocks of one id gather in the last of them, and sorts again, and leaves the light
part as the plain loop does.
-/

namespace FOSketch

open Memory Light

/-- `OUpdateCUSketch_B` with the sizes it is compiled for; `stack` is what the array `dump` holds on entry. -/
def OUpdateCUSketch_B (CUSKETCH_MEM NUM_HEAVY : Nat) (hash : U32 → U32) (stack : Nat → Block64) (tmpB : Block64)
    (pDataCUSketch : Nat → Byte) (HeavyHitterList : Nat → Item) : Nat → Byte :=
  let num1Block := CUSKETCH_MEM / nRecord
  let numBlock := (num1Block + NUM_HEAVY) % 4294967296
  let level := toByte (Nat.clog 2 numBlock)
  let numBlock := 2 ^ level.val
  let dump := (List.range num1Block).map (fun i => lightBlock pDataCUSketch i (stack i)) ++
    fillHeavy hash CUSKETCH_MEM (load HeavyHitterList NUM_HEAVY NUM_HEAVY) (fun i => stack (num1Block + i))
      (numBlock - num1Block)
  let dump := BitonicSorter.sort greater_SP dump numBlock
  let dump := OMax (dump.take (num1Block + NUM_HEAVY)) tmpB true ++ dump.drop (num1Block + NUM_HEAVY)
  let dump := BitonicSorter.sort greater_SP dump numBlock
  copyBack pDataCUSketch dump num1Block

namespace Light

open Keyed

section Blocks
variable (hash : U32 → U32) (stack : Nat → Block64) (tmpB : Block64) (pLight : Nat → Byte) {n : Nat} (pHeavy : List Item)

/-- The light blocks and the heavy ones, with spare ones up to `num` behind them. -/
def allBlocks (n num : Nat) : List Block64 :=
  lightBlocks pLight stack n ++ fillHeavy hash (60 * n) pHeavy (fun i => stack (n + i)) (num - n)

theorem length_allBlocks {num : Nat} (h : n + pHeavy.length ≤ num) :
    (allBlocks hash stack pLight pHeavy n num).length = num := by
  rw [allBlocks, List.length_append, length_lightBlocks, length_fillHeavy]
  split_ifs <;> omega

theorem countP_allBlocks (num : Nat) :
    (allBlocks hash stack pLight pHeavy n num).countP (fun x => decide (blockMerging.key x ≠ ⊤)) ≤ n + pHeavy.length := by
  have hlight := (lightBlocks pLight stack n).countP_le_length (p := fun x => decide (blockMerging.key x ≠ ⊤))
  rw [length_lightBlocks] at hlight
  rw [allBlocks, List.countP_append]
  exact Nat.add_le_add hlight (countP_le_of_drop (fillHeavy_spare hash (60 * n) pHeavy _ _))

variable (h0 : 0 < n)
include h0

theorem mem_keys_allBlocks (num : Nat) {b : Bid} (hb : b ≠ ⊤) :
    b ∈ (allBlocks hash stack pLight pHeavy n num).map blockMerging.key ↔ b ∈ (List.range n).map toBid := by
  rw [allBlocks, List.map_append, map_key_lightBlocks, List.mem_append]
  refine ⟨fun h => h.elim id fun hmem => ?_, Or.inl⟩
  obtain ⟨x, hx, rfl⟩ := List.mem_map.mp hmem
  rw [← List.take_append_drop pHeavy.length (fillHeavy ..), List.mem_append] at hx
  rcases hx with hx | hx
  · have hlt := fillHeavy_hit hash h0 pHeavy _ _ x hx
    refine List.mem_map.mpr ⟨x.blockID.val, List.mem_range.mpr hlt, Fin.ext ?_⟩
    rw [toBid_val, Nat.mod_eq_of_lt x.blockID.isLt]
    rfl
  · exact absurd (fillHeavy_spare hash (60 * n) pHeavy _ _ x hx) hb

theorem gather_allBlocks (hn : n ≤ 65535) (num : Nat) {k : Nat} (hk : k < n) (j : Fin 60) :
    gather blockMerging.key Block64.data (allBlocks hash stack pLight pHeavy n num) (toBid k) j =
      counterMax hash pLight (60 * n) pHeavy (k * 60 + j) := by
  rw [allBlocks, gather_append, Pi.sup_apply, gather_lightBlocks pLight stack hn hk,
    gather_fillHeavy hash h0 hn pHeavy _ _ hk j, counterMax_eq]
  rfl

end Blocks

theorem OUpdateCUSketch_B_eq_pass (hash : U32 → U32) (stack : Nat → Block64) (tmpB : Block64) (pDataCUSketch : Nat → Byte)
    (HeavyHitterList : Nat → Item) {n NUM_HEAVY : Nat} (hn : n ≤ 65535) (hH : NUM_HEAVY ≤ 2 ^ 29) :
    ∃ num, n + NUM_HEAVY ≤ num ∧ num ≤ 2 ^ 30 ∧
      OUpdateCUSketch_B (60 * n) NUM_HEAVY hash stack tmpB pDataCUSketch HeavyHitterList =
        copyBack pDataCUSketch (bitonicPass blockMerging greater_SP
          (allBlocks hash stack pDataCUSketch (load HeavyHitterList NUM_HEAVY NUM_HEAVY) n num) (n + NUM_HEAVY) tmpB) n := by
  have hblocks : 60 * n / nRecord = n := Nat.mul_div_cancel_left n (by decide)
  have hmod : (n + NUM_HEAVY) % 4294967296 = n + NUM_HEAVY := Nat.mod_eq_of_lt (by omega)
  have hclog : Nat.clog 2 (n + NUM_HEAVY) ≤ 30 := Nat.clog_le_of_le_pow (by omega)
  have hlevel : (toByte (Nat.clog 2 (n + NUM_HEAVY))).val = Nat.clog 2 (n + NUM_HEAVY) := Nat.mod_eq_of_lt (by omega)
  have hroom : n + NUM_HEAVY ≤ 2 ^ Nat.clog 2 (n + NUM_HEAVY) := Nat.le_pow_clog (by decide) _
  have hlen : (allBlocks hash stack pDataCUSketch (load HeavyHitterList NUM_HEAVY NUM_HEAVY) n
      (2 ^ Nat.clog 2 (n + NUM_HEAVY))).length = 2 ^ Nat.clog 2 (n + NUM_HEAVY) :=
    length_allBlocks hash stack pDataCUSketch _ (by rwa [length_load])
  refine ⟨2 ^ Nat.clog 2 (n + NUM_HEAVY), hroom, Nat.pow_le_pow_right (by decide) hclog, ?_⟩
  unfold OUpdateCUSketch_B bitonicPass
  dsimp only
  rw [hblocks, hmod, hlevel, ← lightBlocks, ← allBlocks, hlen, OMax_eq]

/-- **The update on one array** leaves the light part as the plain loop does. -/
theorem OUpdateCUSketch_B_eq (hash : U32 → U32) (stack : Nat → Block64) (tmpB : Block64) (pDataCUSketch : Nat → Byte)
    (HeavyHitterList : Nat → Item) {n NUM_HEAVY : Nat} (h0 : 1 ≤ n) (hn : n ≤ 65535) (hH : NUM_HEAVY ≤ 2 ^ 29) :
    OUpdateCUSketch_B (60 * n) NUM_HEAVY hash stack tmpB pDataCUSketch HeavyHitterList =
      UpdateCUSketch_NO hash pDataCUSketch (60 * n) (load HeavyHitterList NUM_HEAVY NUM_HEAVY) := by
  obtain ⟨num, hroom, hlong, hpass⟩ := OUpdateCUSketch_B_eq_pass hash stack tmpB pDataCUSketch HeavyHitterList hn hH
  rw [UpdateCUSketch_NO_eq, hpass]
  have hheavy : (load HeavyHitterList NUM_HEAVY NUM_HEAVY).length = NUM_HEAVY := length_load ..
  generalize load HeavyHitterList NUM_HEAVY NUM_HEAVY = pHeavy at hheavy ⊢
  subst hheavy
  funext a
  by_cases ha : a / 60 < n
  · obtain ⟨b, hb, -, hdata⟩ := bitonicPass_val blockMerging_lawful greater_SP_compares
      ((length_allBlocks hash stack pDataCUSketch pHeavy hroom).trans_le hlong)
      (countP_allBlocks hash stack pDataCUSketch pHeavy num) (ids_pairwise hn) (top_notMem_ids hn)
      (fun b hb => mem_keys_allBlocks hash stack pDataCUSketch pHeavy h0 num hb) tmpB (getElem?_ids ha)
    rw [copyBack_some pDataCUSketch ha hb, hdata, gather_allBlocks hash stack pDataCUSketch pHeavy h0 hn num ha]
    congr 1
    dsimp only
    omega
  · rw [copyBack_none pDataCUSketch _ (not_lt.mp ha), counterMax_of_le hash pDataCUSketch (by omega) (by omega)]

/-- Two blocks, and two items for one counter. -/
theorem OUpdateCUSketch_B_eq_two :
    OUpdateCUSketch_B (60 * 2) 2 (fun f => f) (fun _ => ⟨0, 0, fun _ => 9⟩) ⟨0, 0, fun _ => 9⟩ (fun _ => 7)
        (fun _ => ⟨63, 300⟩) =
      UpdateCUSketch_NO (fun f => f) (fun _ => 7) (60 * 2) (load (fun _ => ⟨63, 300⟩) 2 2) :=
  OUpdateCUSketch_B_eq (fun f => f) (fun _ => ⟨0, 0, fun _ => 9⟩) ⟨0, 0, fun _ => 9⟩ (fun _ => 7) (fun _ => ⟨63, 300⟩)
    (by decide) (by decide) (by decide)

end Light

end FOSketch
