import FOSketch.Light.Mixed

/-!
# The light-part update and the plain loop

With a power of two of light blocks `OUpdateCUSketch_BEx` ends as `UpdateCUSketch_NO` does. With any other number it does
so for the heavy flows that `MergeInOrder` admits, and for no others: for those some counters and sizes tell the two
apart.
-/

namespace FOSketch.Light

open Network Keyed

theorem mergedBlocks_pairwise_of_two_pow (hash : U32 → U32) (stack : Nat → Block64) (tmpB : Block64) (pLight : Nat → Byte)
    {n : Nat} {pHeavy : List Item} (h0 : 0 < n) (hn : n ≤ 65535) (hH : pHeavy.length ≤ 2 ^ 30) {k : Nat} (hk : n = 2 ^ k) :
    (mergedBlocks hash stack tmpB pLight n pHeavy).Pairwise fun x y => x.blockID ≤ y.blockID := by
  have hpo2 : testPo2 n = true := testPo2_iff.mpr ⟨k, hk⟩
  have hlight : (lightBlocks pLight stack n).Pairwise fun x y => x.blockID ≤ y.blockID := by
    have h := (ids_pairwise hn).imp le_of_lt
    rw [← map_key_lightBlocks pLight stack n, List.pairwise_map] at h
    exact h
  have hheavy := (heavyBlocks_pairwise hash stack tmpB h0 hn hH).sublist (List.take_sublist n _)
  have hlen : ((heavyBlocks hash stack tmpB n pHeavy).take n).length = 2 ^ k := by
    rw [List.length_take, min_eq_left (length_le_heavyBlocks hash stack tmpB), hk]
  have hmerge := OddEvenMergeSorter.merge_pairwise greater_SP_compares
    (by rw [length_lightBlocks, hk]) hlen (by rw [pow_succ, ← hk]; omega) hlight hheavy
  rw [mergedBlocks, mergeInput, length_lightBlocks, hpo2]
  rwa [pow_succ, ← hk] at hmerge

/-- **The odd-even-merge path** leaves the light part as the plain loop does: each counter at the largest of its value
and of `min(255, size)` over the heavy items hashed to it. -/
theorem OUpdateCUSketch_BEx_eq_of_two_pow (hash : U32 → U32) (stack : Nat → Block64) (tmpB : Block64)
    (pLight : Nat → Byte) {k : Nat} (hk : k ≤ 15) {pHeavy : List Item} (_h1 : 1 ≤ pHeavy.length)
    (hH : pHeavy.length ≤ 2 ^ 29) :
    OUpdateCUSketch_BEx hash stack tmpB pLight (60 * 2 ^ k) pHeavy = UpdateCUSketch_NO hash pLight (60 * 2 ^ k) pHeavy ∧
      ∀ c, OUpdateCUSketch_BEx hash stack tmpB pLight (60 * 2 ^ k) pHeavy c =
        counterMax hash pLight (60 * 2 ^ k) pHeavy c := by
  have hpos := Nat.two_pow_pos k
  have hn : 2 ^ k ≤ 65535 := (Nat.pow_le_pow_right (by omega) hk).trans (by norm_num)
  have hH' : pHeavy.length ≤ 2 ^ 30 := by omega
  have h := OUpdateCUSketch_BEx_of_merged hash stack tmpB pLight hpos hn hH'
    (mergedBlocks_pairwise_of_two_pow hash stack tmpB pLight hpos hn hH' rfl)
  exact ⟨h, fun c => by rw [h, UpdateCUSketch_NO_eq]⟩

theorem OUpdateCUSketch_BEx_eq_of_two_pow_two :
    OUpdateCUSketch_BEx (fun f => f) (fun _ => noBlock) noBlock (fun _ => 7) (60 * 2 ^ 1) [⟨3, 300⟩, ⟨63, 5⟩, ⟨3, 8⟩] =
        UpdateCUSketch_NO (fun f => f) (fun _ => 7) (60 * 2 ^ 1) [⟨3, 300⟩, ⟨63, 5⟩, ⟨3, 8⟩] ∧
      ∀ c, OUpdateCUSketch_BEx (fun f => f) (fun _ => noBlock) noBlock (fun _ => 7) (60 * 2 ^ 1)
        [⟨3, 300⟩, ⟨63, 5⟩, ⟨3, 8⟩] c = counterMax (fun f => f) (fun _ => 7) (60 * 2 ^ 1) [⟨3, 300⟩, ⟨63, 5⟩, ⟨3, 8⟩] c :=
  OUpdateCUSketch_BEx_eq_of_two_pow (fun f => f) (fun _ => noBlock) noBlock (fun _ => 7) (by decide) (by decide)
    (by decide)

/-- **The bitonic-merge path** leaves the light part as the plain loop does, whatever the counters, the sizes and the
stack hold, exactly when the light blocks that the heavy flows hit are ones that the merger puts in order. -/
theorem OUpdateCUSketch_BEx_eq_iff {hash : U32 → U32} {n : Nat} (h0 : 0 < n) (hn : n ≤ 65535) (hpo2 : ∀ e, n ≠ 2 ^ e)
    {flows : List U32} (_h1 : flows ≠ []) (hF : flows.length ≤ 2 ^ 30) :
    (∀ (stack : Nat → Block64) (tmpB : Block64) (pLight : Nat → Byte) (pHeavy : List Item),
      pHeavy.map Item.flowID = flows →
        OUpdateCUSketch_BEx hash stack tmpB pLight (60 * n) pHeavy = UpdateCUSketch_NO hash pLight (60 * n) pHeavy) ↔
      MergeInOrder hash n flows := by
  have htest : testPo2 n = false := by
    rw [← Bool.not_eq_true, testPo2_iff]
    rintro ⟨e, he⟩
    exact hpo2 e he
  constructor
  · intro h
    by_contra hnot
    obtain ⟨stack, tmpB, pLight, pHeavy, hmap, hne⟩ := mixed h0 hn hF htest hnot
    exact hne (h stack tmpB pLight pHeavy hmap)
  · rintro h stack tmpB pLight pHeavy rfl
    rw [List.length_map] at hF
    exact OUpdateCUSketch_BEx_of_merged hash stack tmpB pLight h0 hn hF
      ((mergedBlocks_pairwise_iff hash stack tmpB pLight h0 hn hF htest).mpr h)

theorem three_ne_two_pow (e : Nat) : 3 ≠ 2 ^ e := by
  rcases e with _ | _ | e
  · decide
  · decide
  · rw [pow_succ, pow_succ]; omega

theorem OUpdateCUSketch_BEx_eq_iff_three :
    (∀ (stack : Nat → Block64) (tmpB : Block64) (pLight : Nat → Byte) (pHeavy : List Item),
      pHeavy.map Item.flowID = [0, 60, 120, 7, 60] →
        OUpdateCUSketch_BEx (fun f => f) stack tmpB pLight (60 * 3) pHeavy =
          UpdateCUSketch_NO (fun f => f) pLight (60 * 3) pHeavy) ↔
      MergeInOrder (fun f => f) 3 [0, 60, 120, 7, 60] :=
  OUpdateCUSketch_BEx_eq_iff (by decide) (by decide) three_ne_two_pow (by decide) (by decide)

/-- Three light blocks, each hit by one flow: the item of size 2 in the second block is lost. -/
theorem OUpdateCUSketch_BEx_three_ne :
    OUpdateCUSketch_BEx (fun f => f) (fun _ => noBlock) noBlock (fun _ => 0) (60 * 3) [⟨0, 1⟩, ⟨60, 2⟩, ⟨120, 3⟩] ≠
      UpdateCUSketch_NO (fun f => f) (fun _ => 0) (60 * 3) [⟨0, 1⟩, ⟨60, 2⟩, ⟨120, 3⟩] := by
  have h : OUpdateCUSketch_BEx (fun f => f) (fun _ => noBlock) noBlock (fun _ => 0) (60 * 3) [⟨0, 1⟩, ⟨60, 2⟩, ⟨120, 3⟩] 60 ≠
      UpdateCUSketch_NO (fun f => f) (fun _ => 0) (60 * 3) [⟨0, 1⟩, ⟨60, 2⟩, ⟨120, 3⟩] 60 := by decide +kernel
  exact fun heq => h (congrFun heq 60)

end FOSketch.Light
