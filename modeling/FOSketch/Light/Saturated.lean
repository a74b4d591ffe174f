import FOSketch.Heavy.Response
import FOSketch.Light.FirstBlock
import FOSketch.Light.Histogram

/-!
# A light part without zeros

`OPrepareData` takes the logarithm of the share of zero counters, and nothing before it asks whether there are any. By the
histogram `CountLight[0]` counts the zeros of the light part. A counter of a message is free if it is `0` in both epochs and
no item of the lower heavy half is hashed to it with a packet. A free counter of the first light block is left at `0`
whatever order the blocks are merged in, and with the blocks in order a zero is left exactly if some counter is free
(`CountLight_zero_iff`).
-/

namespace FOSketch.Light

open Heavy Memory Secure

@[irreducible] def numEBlock : Nat := CUSKETCH_MEM / nRecord

theorem numEBlock_eq : numEBlock = 7680 := by
  unfold numEBlock
  decide

theorem CUSKETCH_MEM_eq : CUSKETCH_MEM = 60 * numEBlock := by
  rw [numEBlock_eq]
  decide

theorem numEBlock_pos : 0 < numEBlock := by
  rw [numEBlock_eq]
  decide

theorem numEBlock_few : numEBlock ≤ 65535 := by
  rw [numEBlock_eq]
  decide

def lowerHalf (p2Sketch : Nat → Byte) : List Item := (Heavy.merged p2Sketch).drop NUM_HEAVY

def ZeroInBoth (p2Sketch : Nat → Byte) (c : Nat) : Prop :=
  p2Sketch (1 + c) = 0 ∧ p2Sketch (TOTAL_MEM + 2 + 1 + c) = 0

/-- Source `s` leaves counter `j` of a block at `0`: a light block in which it is `0`, or an item that is hashed to another
one or has no packets. -/
def LeavesZero (hash : U32 → U32) (p2Sketch : Nat → Byte) (s : Nat) (j : Fin 60) : Prop :=
  if s < numEBlock then ZeroInBoth p2Sketch (s * 60 + j)
  else
    ∀ item, (lowerHalf p2Sketch)[s - numEBlock]? = some item → cell hash CUSKETCH_MEM item % 60 = j → item.size = 0

theorem length_lowerHalf (p2Sketch : Nat → Byte) : (lowerHalf p2Sketch).length = NUM_HEAVY := by
  have hlen := (merged_perm p2Sketch).length_eq
  rw [length_received] at hlen
  rw [lowerHalf, List.length_drop, hlen]
  omega

theorem load_lowerHalf (p2Sketch : Nat → Byte) (g : Epoch) :
    load (mergedHeavy p2Sketch g) NUM_HEAVY NUM_HEAVY = lowerHalf p2Sketch := by
  have hsplit := load_mergedHeavy p2Sketch g
  rw [Nat.mul_two, load_add, Nat.zero_add] at hsplit
  rw [lowerHalf, ← hsplit, List.drop_left' (length_load _ _ _)]

/-! ## Zeros -/

theorem byte_le_zero {v : Byte} : v ≤ 0 ↔ v = 0 := by rw [Fin.le_def, Fin.ext_iff, Fin.val_zero, Nat.le_zero]

theorem mergeLight_eq_zero {p2Sketch light : Nat → Byte} {c : Nat} (hc : c < CUSKETCH_MEM) :
    mergeLight p2Sketch light c = 0 ↔ ZeroInBoth p2Sketch c := by
  rw [mergeLight, if_pos hc, ← byte_le_zero, max_le_iff, byte_le_zero, byte_le_zero, ZeroInBoth]

theorem offer_eq_zero {item : Item} : offer item = 0 ↔ item.size = 0 := by
  rw [Fin.ext_iff, offer_val, Fin.ext_iff, Fin.val_zero, Fin.val_zero]
  omega

theorem histogram_zero {px : Nat → Byte} {size : Nat} {CountLight : Nat → U32}
    (h : Histogram (load px 0 size) CountLight) : 1 ≤ CountLight 0 ↔ ∃ c < size, px c = 0 := by
  have hcount : (CountLight 0).val = (load px 0 size).count 0 := h.count 0
  have hone : (1 : U32).val = 1 := rfl
  rw [Fin.le_def, hcount, hone, Nat.one_le_iff_ne_zero, ← Nat.pos_iff_ne_zero, List.count_pos_iff, load, List.mem_map]
  simp only [List.mem_range, Nat.zero_add]

/-! ## The update of a message -/

section Update
variable (hash : U32 → U32) (stack : Nat → Block64) (tmpB : Block64) (p2Sketch light : Nat → Byte)

theorem sourceData_eq_zero {s : Nat} (hs : s < numEBlock + (lowerHalf p2Sketch).length) (j : Fin 60) :
    sourceData hash stack (mergeLight p2Sketch light) numEBlock (lowerHalf p2Sketch) s j = 0 ↔
      LeavesZero hash p2Sketch s j := by
  have hj := j.isLt
  unfold sourceData LeavesZero
  by_cases hlight : s < numEBlock
  · rw [if_pos hlight, if_pos hlight]
    apply mergeLight_eq_zero
    rw [CUSKETCH_MEM_eq, nRecord_eq]
    omega
  · have hget := List.getElem?_eq_getElem (l := lowerHalf p2Sketch) (i := s - numEBlock) (by omega)
    rw [if_neg hlight, if_neg hlight, hget]
    dsimp only
    rw [heavyBlock_data, ← CUSKETCH_MEM_eq]
    generalize (lowerHalf p2Sketch)[s - numEBlock] = x
    by_cases hcell : cell hash CUSKETCH_MEM x % 60 = j.val
    · rw [if_pos hcell, offer_eq_zero]
      constructor
      · intro hsize item hitem _
        rwa [← Option.some.inj hitem]
      · exact fun h => h x rfl hcell
    · rw [if_neg hcell]
      refine iff_of_true rfl fun item hitem hitemcell => absurd ?_ hcell
      rwa [Option.some.inj hitem]

/-- Nothing is counted in counter `c`: it is `0` in both epochs, and no item of the lower half with packets is hashed to
it. -/
def FreeCounter (c : Nat) : Prop :=
  ZeroInBoth p2Sketch c ∧ ∀ item ∈ lowerHalf p2Sketch, cell hash CUSKETCH_MEM item = c → item.size = 0

/-- **A free counter of the first light block** is left at `0`. -/
theorem update_eq_zero_of_free {c : Nat} (hc : c < 60) (hfree : FreeCounter hash p2Sketch c) :
    OUpdateCUSketch_BEx hash stack tmpB (mergeLight p2Sketch light) CUSKETCH_MEM (lowerHalf p2Sketch) c = 0 := by
  have hpo2 : testPo2 numEBlock = false := by
    rw [numEBlock_eq]
    decide
  have hroom : numEBlock ≤ ((lowerHalf p2Sketch).map Item.flowID).length := by
    rw [List.length_map, length_lowerHalf, numEBlock_eq]
    decide
  have hroute := OUpdateCUSketch_BEx_route hash stack tmpB (mergeLight p2Sketch light) numEBlock (lowerHalf p2Sketch)
    numEBlock_few numEBlock_pos ⟨c, hc⟩
  rw [← CUSKETCH_MEM_eq, Nat.zero_mul, Nat.zero_add] at hroute
  rw [hroute, ← byte_le_zero, Finset.sup_le_iff]
  intro s hs
  have hlt := route_lt hash hroom hs
  have hhome := home_of_mem_route_zero hash numEBlock_pos numEBlock_few hpo2 hs
  rw [List.length_map] at hlt
  rw [byte_le_zero, sourceData_eq_zero hash stack p2Sketch light hlt, LeavesZero]
  by_cases hlight : s < numEBlock
  · rw [home, if_pos hlight] at hhome
    rw [if_pos hlight, hhome, Nat.zero_mul, Nat.zero_add]
    exact hfree.1
  · obtain ⟨i, rfl⟩ := Nat.exists_eq_add_of_le (not_lt.mp hlight)
    rw [if_neg hlight, Nat.add_sub_cancel_left]
    intro item hitem hcell
    have hblock := home_item hash numEBlock hitem
    rw [hhome, ← CUSKETCH_MEM_eq] at hblock
    refine hfree.2 item (List.mem_of_getElem? hitem) ?_
    rw [← Nat.div_add_mod (cell hash CUSKETCH_MEM item) 60, ← hblock, hcell, Nat.mul_zero, Nat.zero_add]

/-- **Any free counter** is, and no other, when the merge puts the blocks in order. -/
theorem update_zero_iff_of_mergeInOrder
    (hmerge : MergeInOrder hash numEBlock ((lowerHalf p2Sketch).map Item.flowID)) {c : Nat} (hc : c < CUSKETCH_MEM) :
    OUpdateCUSketch_BEx hash stack tmpB (mergeLight p2Sketch light) CUSKETCH_MEM (lowerHalf p2Sketch) c = 0 ↔
      FreeCounter hash p2Sketch c := by
  have hpo2 : testPo2 numEBlock = false := by
    rw [numEBlock_eq]
    decide
  have hH : (lowerHalf p2Sketch).length ≤ 2 ^ 30 := by
    rw [length_lowerHalf]
    decide
  have hsorted := (mergedBlocks_pairwise_iff hash stack tmpB (mergeLight p2Sketch light) numEBlock_pos numEBlock_few hH
    hpo2).mpr hmerge
  have hmax := OUpdateCUSketch_BEx_of_merged hash stack tmpB (mergeLight p2Sketch light) numEBlock_pos numEBlock_few hH
    hsorted
  rw [← CUSKETCH_MEM_eq, UpdateCUSketch_NO_eq] at hmax
  rw [hmax, ← byte_le_zero, counterMax_le_iff, byte_le_zero, mergeLight_eq_zero hc]
  simp only [byte_le_zero, offer_eq_zero]
  rfl

end Update

theorem CountLight_evaluate (out : Outside) (draws : Draws) (m : Mallocs) (p2Sketch : Nat → Byte) (g : Epoch) :
    1 ≤ (evaluate out draws m p2Sketch g).CountLight 0 ↔ ∃ c < CUSKETCH_MEM,
      OUpdateCUSketch_BEx (out.Hash32 (seed draws.cusHash)) m.stack m.tmpB (mergeLight p2Sketch m.light) CUSKETCH_MEM
        (lowerHalf p2Sketch) c = 0 := by
  have hcount := histogram_zero (histogram_evaluate out draws m p2Sketch g)
  rwa [updatedLight, load_lowerHalf] at hcount

/-- **A zero is left to count** if some counter of the first light block is free; with the blocks merged in order, exactly if
some counter is. -/
theorem CountLight_zero_iff {out : Outside} {m : Mallocs} {pMsgSketch : Message} {pCtx : Ctx} {p2Sketch : Nat → Byte}
    (draws : Draws) (g : Epoch) (hp : receive out m pMsgSketch pCtx = some p2Sketch) :
    let hash := out.Hash32 (seed draws.cusHash)
    let CountLight := (OPrepareData out draws m pMsgSketch pCtx g).1.CountLight
    ((∃ c < 60, FreeCounter hash p2Sketch c) → 1 ≤ CountLight 0) ∧
      (MergeInOrder hash numEBlock ((lowerHalf p2Sketch).map Item.flowID) →
        (1 ≤ CountLight 0 ↔ ∃ c < CUSKETCH_MEM, FreeCounter hash p2Sketch c)) := by
  intro hash CountLight
  have hcount : CountLight = (evaluate out draws m p2Sketch (saveHeavy g)).CountLight := by
    show (OPrepareData out draws m pMsgSketch pCtx g).1.CountLight = _
    rw [OPrepareData_accepted hp]
  rw [hcount, CountLight_evaluate]
  constructor
  · rintro ⟨c, hc, hfree⟩
    have hmem : c < CUSKETCH_MEM := hc.trans (by decide)
    exact ⟨c, hmem, update_eq_zero_of_free hash m.stack m.tmpB p2Sketch m.light hc hfree⟩
  · intro hmerge
    apply exists_congr
    intro c
    apply and_congr_right
    exact update_zero_iff_of_mergeInOrder hash m.stack m.tmpB p2Sketch m.light hmerge

/-- 15360 flows with one to seven packets each, none of them hashed to counter 1. -/
def spread (i : Nat) : Item := ⟨Fin.ofNat _ (256 * (i + 1)), Fin.ofNat _ (i % 7 + 1)⟩

theorem free_spread {p2Sketch : Nat → Byte} (hbytes : ∀ a < 2 * (TOTAL_MEM + 2), p2Sketch a = sketchBytes spread a) :
    FreeCounter (noOutside.Hash32 (seed noDraws.cusHash)) p2Sketch 1 := by
  refine ⟨⟨?_, ?_⟩, fun item hitem hcell => ?_⟩
  · rw [hbytes (1 + 1) (by decide)]
    decide +kernel
  · rw [hbytes (TOTAL_MEM + 2 + 1 + 1) (by decide)]
    decide +kernel
  · have hitem := (merged_perm p2Sketch).mem_iff.mp (List.mem_of_mem_drop hitem)
    rw [received_of_agree hbytes] at hitem
    obtain ⟨i, -, rfl⟩ := List.mem_map.mp hitem
    have hval : 256 * (0 + i + 1) % 4294967296 % 460800 = 1 := hcell
    omega

theorem CountLight_zero_iff_spread :
    ∃ p2Sketch, receive noOutside noMallocs (sketchMessage spread) zeroCtx = some p2Sketch ∧
      let hash := noOutside.Hash32 (seed noDraws.cusHash)
      let CountLight := (OPrepareData noOutside noDraws noMallocs (sketchMessage spread) zeroCtx firstEpoch).1.CountLight
      1 ≤ CountLight 0 ∧ (MergeInOrder hash numEBlock ((lowerHalf p2Sketch).map Item.flowID) →
        (1 ≤ CountLight 0 ↔ ∃ c < CUSKETCH_MEM, FreeCounter hash p2Sketch c)) := by
  obtain ⟨p2Sketch, hp, hbytes⟩ := receive_sketchBytes spread
  obtain ⟨hfirst, hordered⟩ := CountLight_zero_iff noDraws firstEpoch hp
  exact ⟨p2Sketch, hp, hfirst ⟨1, by decide, free_spread hbytes⟩, hordered⟩

/-! ## A saturated sketch -/

/-- With every flow hashed into the last light block the merge puts the blocks in order. -/
theorem mergeInOrder_last {hash : U32 → U32} {n : Nat} {flows : List U32}
    (h : ∀ f ∈ flows, (hash f).val % (60 * n) / 60 = n - 1) : MergeInOrder hash n flows := by
  intro t ht
  left
  rw [hits, List.length_eq_zero_iff, List.filter_eq_nil_iff]
  intro b hb
  rw [List.mem_range] at hb
  rw [isHit, List.any_eq_true]
  rintro ⟨f, hf, hhit⟩
  rw [beq_iff_eq, h f hf] at hhit
  omega

/-- A message without zeros whose heavy flows are all hashed into the last light block leaves no zero, whatever the hash. -/
theorem CountLight_eq_zero {out : Outside} {m : Mallocs} {pMsgSketch : Message} {pCtx : Ctx} {p2Sketch : Nat → Byte}
    (draws : Draws) (g : Epoch) (hp : receive out m pMsgSketch pCtx = some p2Sketch)
    (hlight : ∀ c < CUSKETCH_MEM, ¬ZeroInBoth p2Sketch c)
    (hlast : ∀ f ∈ (lowerHalf p2Sketch).map Item.flowID,
      (out.Hash32 (seed draws.cusHash) f).val % (60 * numEBlock) / 60 = numEBlock - 1) :
    (OPrepareData out draws m pMsgSketch pCtx g).1.CountLight 0 = 0 := by
  have hmerge := mergeInOrder_last hlast
  have hnone : ¬1 ≤ (evaluate out draws m p2Sketch (saveHeavy g)).CountLight 0 := by
    rw [CountLight_evaluate]
    rintro ⟨c, hc, hzero⟩
    exact hlight c hc ((update_zero_iff_of_mergeInOrder _ _ _ p2Sketch _ hmerge hc).mp hzero).1
  rw [OPrepareData_accepted hp]
  exact Fin.ext (Nat.eq_zero_of_not_pos hnone)

/-- Every counter is `255`, and every entry of the heavy lists is the flow of the last counter: no counter is left at `0`. -/
theorem CountLight_zero_saturated :
    let message := sketchMessage fun _ => ⟨460799, 5⟩
    (OPrepareData noOutside noDraws noMallocs message zeroCtx firstEpoch).2 = true ∧
      (OPrepareData noOutside noDraws noMallocs message zeroCtx firstEpoch).1.CountLight 0 = 0 := by
  obtain ⟨p2Sketch, hp, hbytes⟩ := receive_sketchBytes fun _ => ⟨460799, 5⟩
  have hlight : ∀ c < CUSKETCH_MEM, ¬ZeroInBoth p2Sketch c := by
    rintro c hc ⟨hzero, -⟩
    have hsmall : 1 + c < 2 * (TOTAL_MEM + 2) := by
      unfold TOTAL_MEM
      omega
    have hfirst : 1 + c - heavyStart = 0 := by
      unfold heavyStart
      omega
    have hhalf : 1 + c < TOTAL_MEM + 2 := by
      unfold TOTAL_MEM
      omega
    rw [hbytes (1 + c) hsmall, sketchBytes, if_pos hhalf, hfirst] at hzero
    exact absurd hzero (by decide +kernel)
  have hlast : ∀ f ∈ (lowerHalf p2Sketch).map Item.flowID,
      (noOutside.Hash32 (seed noDraws.cusHash) f).val % (60 * numEBlock) / 60 = numEBlock - 1 := by
    intro f hf
    obtain ⟨x, hx, rfl⟩ := List.mem_map.mp hf
    have hx := (merged_perm p2Sketch).mem_iff.mp (List.mem_of_mem_drop hx)
    rw [received_of_agree hbytes] at hx
    obtain ⟨i, -, rfl⟩ := List.mem_map.mp hx
    rw [numEBlock_eq]
    show (460799 : U32).val % (60 * 7680) / 60 = 7680 - 1
    decide +kernel
  refine ⟨?_, CountLight_eq_zero noDraws firstEpoch hp hlight hlast⟩
  rw [OPrepareData_accepted hp]

end FOSketch.Light
