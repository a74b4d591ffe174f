import FOSketch.Heavy.Prepare
import FOSketch.Network.TwoRuns

/-!
# The merge of the heavy lists

`OPrepareData` merges the two heavy lists, which come in non-increasing order, with the odd-even merger when `2 * NUM_HEAVY`
is a power of two. Else it means to turn the first list round, so that the bitonic merger applies, but exchanges the entries
`k` and `NUM_HEAVY - k`: the first exchange reaches into the second list. With a power of two the lists always come out in
order, with any other number never when the second list has the larger sizes (`mergeHeavyOf_spec`).
-/

namespace FOSketch.Heavy

open Memory Network

/-! ## The step for any number of entries -/

/-- `reverseHalf` compiled for `NUM_HEAVY` entries. -/
def reverseHalfOf (NUM_HEAVY : Nat) (HeavyHitterList : Nat → Item) : Nat → Item :=
  (List.range (NUM_HEAVY / 2)).foldl (fun list k =>
    Function.update (Function.update list k (list (NUM_HEAVY - k))) (NUM_HEAVY - k) (list k)) HeavyHitterList

/-- `mergeHeavy` compiled for `NUM_HEAVY` entries. -/
def mergeHeavyOf (NUM_HEAVY : Nat) (HeavyHitterList : Nat → Item) : Nat → Item :=
  if testPo2 (NUM_HEAVY * 2) then
    store HeavyHitterList 0
      (OddEvenMergeSorter.merge smallerItem (load HeavyHitterList 0 (NUM_HEAVY * 2)) (NUM_HEAVY * 2))
  else
    let list := reverseHalfOf NUM_HEAVY HeavyHitterList
    store list 0 (BitonicSorter.merge smallerItem (load list 0 (NUM_HEAVY * 2)) (NUM_HEAVY * 2))

theorem mergeHeavy_eq : mergeHeavy = mergeHeavyOf NUM_HEAVY := rfl

/-! ## The exchanges -/

section Exchanges
variable {α : Type*} {N : Nat}

theorem foldl_exchange {ks : List Nat} (hks : ∀ k ∈ ks, 0 < k ∧ k < N) (list : Nat → α) :
    ∃ σ : Equiv.Perm Nat, (∀ i, i = 0 ∨ N ≤ i → σ i = i) ∧
      ks.foldl (fun list k => Function.update (Function.update list k (list (N - k))) (N - k) (list k)) list =
        list ∘ σ := by
  induction ks generalizing list with
  | nil => exact ⟨1, fun _ _ => rfl, rfl⟩
  | cons k ks ih =>
    have hk := hks k List.mem_cons_self
    obtain ⟨σ, hσ, hfold⟩ := ih (fun k hk => hks k (List.mem_cons_of_mem _ hk)) (list ∘ Equiv.swap (N - k) k)
    refine ⟨Equiv.swap (N - k) k * σ, fun i hi => ?_, ?_⟩
    · rw [Equiv.Perm.mul_apply, hσ i hi]
      exact Equiv.swap_apply_of_ne_of_ne (by omega) (by omega)
    · rw [List.foldl_cons, ← Equiv.comp_swap_eq_update, hfold]
      rfl

theorem load_comp_perm {σ : Equiv.Perm Nat} {n : Nat} (hσ : ∀ i, n ≤ i → σ i = i) (list : Nat → α) :
    (load (list ∘ σ) 0 n).Perm (load list 0 n) := by
  have hrange : ((List.range n).map σ).Perm (List.range n) := by
    rw [List.perm_ext_iff_of_nodup (List.nodup_range.map σ.injective) List.nodup_range]
    intro i
    rw [List.mem_map, List.mem_range]
    constructor
    · rintro ⟨j, hj, rfl⟩
      rw [List.mem_range] at hj
      by_contra hnot
      have hfix : σ j = j := σ.injective (hσ (σ j) (not_lt.mp hnot))
      omega
    · intro hi
      refine ⟨σ.symm i, List.mem_range.mpr ?_, σ.apply_symm_apply i⟩
      by_contra hnot
      have hfix := hσ _ (not_lt.mp hnot)
      rw [σ.apply_symm_apply] at hfix
      omega
  have hmap := hrange.map list
  rw [List.map_map] at hmap
  simpa only [load, Nat.zero_add] using hmap

end Exchanges

/-- The swaps: the first entries of the lists change places, the others of the first list stay in it. -/
theorem reverseHalfOf_eq {N : Nat} (hN : 2 ≤ N) (list : Nat → Item) :
    ∃ σ : Equiv.Perm Nat, (∀ i, i = 0 ∨ N ≤ i → σ i = i) ∧ reverseHalfOf N list = (list ∘ Equiv.swap N 0) ∘ σ := by
  obtain ⟨h, hh⟩ : ∃ h, N / 2 = h + 1 := ⟨N / 2 - 1, by omega⟩
  have hks : ∀ k ∈ (List.range h).map Nat.succ, 0 < k ∧ k < N := by
    intro k hk
    obtain ⟨j, hj, rfl⟩ := List.mem_map.mp hk
    rw [List.mem_range] at hj
    omega
  obtain ⟨σ, hσ, hfold⟩ := foldl_exchange hks (list ∘ Equiv.swap N 0)
  refine ⟨σ, hσ, ?_⟩
  rw [reverseHalfOf, hh, List.range_succ_eq_map, List.foldl_cons, Nat.sub_zero, ← Equiv.comp_swap_eq_update, hfold]

theorem reverseHalfOf_perm {N : Nat} (hN : 1 ≤ N) (list : Nat → Item) :
    (load (reverseHalfOf N list) 0 (N * 2)).Perm (load list 0 (N * 2)) := by
  rcases Nat.lt_or_ge N 2 with h1 | h2
  · obtain rfl : N = 1 := by omega
    exact List.Perm.refl _
  · obtain ⟨σ, hσ, heq⟩ := reverseHalfOf_eq h2 list
    have hfix : ∀ i, N * 2 ≤ i → (Equiv.swap N 0 * σ) i = i := by
      intro i hi
      rw [Equiv.Perm.mul_apply, hσ i (by omega)]
      exact Equiv.swap_apply_of_ne_of_ne (by omega) (by omega)
    rw [heq]
    exact load_comp_perm hfix list

/-- What the swaps do to the entries `0` and from `NUM_HEAVY` on. -/
theorem reverseHalfOf_apply {N : Nat} (hN : 2 ≤ N) (list : Nat → Item) {i : Nat} (hi : i = 0 ∨ N ≤ i) :
    reverseHalfOf N list i = list (Equiv.swap N 0 i) := by
  obtain ⟨σ, hσ, heq⟩ := reverseHalfOf_eq hN list
  rw [heq, Function.comp_apply, hσ i hi, Function.comp_apply]

/-! ## The merged lists -/

/-- The two lists as `readSketchFile` sends them. -/
structure HalvesSorted (N : Nat) (list : Nat → Item) : Prop where
  first : (load list 0 N).Pairwise fun x y => y.size ≤ x.size
  second : (load list N N).Pairwise fun x y => y.size ≤ x.size

def MergedSorted (N : Nat) (list : Nat → Item) : Prop :=
  (load (mergeHeavyOf N list) 0 (N * 2)).Pairwise fun x y => y.size ≤ x.size

section Merged
variable {N : Nat} {list : Nat → Item}

theorem testPo2_double : testPo2 (N * 2) = true ↔ ∃ e, N = 2 ^ e := by
  rw [testPo2_iff]
  constructor
  · rintro ⟨e, he⟩
    cases e with
    | zero => omega
    | succ e => exact ⟨e, by rw [pow_succ] at he; omega⟩
  · rintro ⟨e, rfl⟩
    exact ⟨e + 1, (pow_succ 2 e).symm⟩

theorem load_mergeHeavyOf_po2 (h : ∃ e, N = 2 ^ e) : load (mergeHeavyOf N list) 0 (N * 2) =
    OddEvenMergeSorter.merge smallerItem (load list 0 (N * 2)) (N * 2) := by
  have hlen := (OddEvenMergeSorter.merge_perm smallerItem (load list 0 (N * 2)) (N * 2)).length_eq
  rw [mergeHeavyOf, if_pos (testPo2_double.mpr h), load_store_of_length list 0 (hlen.trans (length_load ..))]

theorem load_mergeHeavyOf (h : ¬∃ e, N = 2 ^ e) : load (mergeHeavyOf N list) 0 (N * 2) =
    BitonicSorter.merge smallerItem (load (reverseHalfOf N list) 0 (N * 2)) (N * 2) := by
  have hlen := (BitonicSorter.merge_perm smallerItem (load (reverseHalfOf N list) 0 (N * 2)) (N * 2)).length_eq
  rw [mergeHeavyOf, if_neg (mt testPo2_double.mp h)]
  exact load_store_of_length (reverseHalfOf N list) 0 (hlen.trans (length_load ..))

theorem mergeHeavyOf_perm (h1 : 1 ≤ N) : (load (mergeHeavyOf N list) 0 (N * 2)).Perm (load list 0 (N * 2)) := by
  by_cases h : ∃ e, N = 2 ^ e
  · rw [load_mergeHeavyOf_po2 h]
    exact OddEvenMergeSorter.merge_perm _ _ _
  · rw [load_mergeHeavyOf h]
    exact (BitonicSorter.merge_perm _ _ _).trans (reverseHalfOf_perm h1 list)

/-- A power of two of entries is merged. -/
theorem mergedSorted_po2 (hN : N ≤ 2 ^ 29) (h : ∃ e, N = 2 ^ e) (hl : HalvesSorted N list) : MergedSorted N list := by
  rw [MergedSorted, load_mergeHeavyOf_po2 h, Nat.mul_two, load_add, Nat.zero_add]
  obtain ⟨e, rfl⟩ := h
  rw [← Nat.mul_two, ← pow_succ]
  exact OddEvenMergeSorter.merge_pairwise smallerItem_compares (length_load ..) (length_load ..)
    (by rw [pow_succ]; omega) hl.first hl.second

theorem HalvesSorted.le_first (hl : HalvesSorted N list) {j : Nat} (hj : j < N) : (list (N + j)).size ≤ (list N).size := by
  rcases Nat.eq_zero_or_pos j with rfl | hpos
  · exact le_refl _
  · have h := List.pairwise_iff_getElem.mp hl.second 0 j (by rw [length_load]; omega) (by rwa [length_load]) hpos
    simpa [load] using h

theorem half_double (h1 : 1 ≤ N) (hN : N ≤ 2 ^ 29) : BitonicSorter.half (N * 2) = 2 ^ Nat.clog 2 N := by
  obtain ⟨e, he, hlt, hle⟩ := BitonicSorter.half_halves (N * 2) (by omega) (by omega)
  have hroom : N ≤ 2 ^ Nat.clog 2 N := Nat.le_pow_clog (by decide) N
  have h2 : Nat.clog 2 N ≤ e := Nat.clog_le_of_le_pow (by omega)
  have h3 : e < Nat.clog 2 N + 1 := (Nat.pow_lt_pow_iff_right (a := 2) (by decide)).mp (by rw [pow_succ]; omega)
  rw [he, show e = Nat.clog 2 N by omega]

/-- With any other number of entries the lists come out of order if the second one has the larger sizes: it is enough that
the first entry of the first list is smaller than the one the first layer of the merger pairs with the left end. -/
theorem not_mergedSorted (h1 : 1 ≤ N) (hN : N ≤ 2 ^ 29) (h : ¬∃ e, N = 2 ^ e) (hl : HalvesSorted N list)
    (hlt : (list 0).size < (list (2 ^ Nat.clog 2 N)).size) : ¬MergedSorted N list := by
  intro hsorted
  have h2 : 2 ≤ N := by
    by_contra hnot
    exact h ⟨0, by rw [pow_zero]; omega⟩
  have hroom : N < 2 ^ Nat.clog 2 N :=
    lt_of_le_of_ne (Nat.le_pow_clog (by decide) N) fun he => h ⟨_, he⟩
  have hhalf := half_double h1 hN
  have htop : 2 ^ Nat.clog 2 N < N * 2 := by
    obtain ⟨e, he, hlt, -⟩ := BitonicSorter.half_halves (N * 2) (by omega) (by omega)
    rwa [← he, hhalf] at hlt
  have hbelow := mergeNet_below BitonicSorter.half true BitonicSorter.half_halves (N * 2) (N * 2) (by omega)
  have hlen : (load (reverseHalfOf N list) 0 (N * 2)).length = N * 2 := length_load ..
  have hnet : Ascending (N * 2) (run gt (mergeNet BitonicSorter.half true (N * 2) (N * 2))
      (threshold (OrderDual.toDual (list 0).size) ((fun x : Item => OrderDual.toDual x.size) ∘
        seq ⟨0, 0⟩ (load (reverseHalfOf N list) 0 (N * 2))))) := by
    refine (zero_one _ _ _).mp ((pairwise_take_runList smallerItem_compares ⟨0, 0⟩ hbelow hlen.ge).mp ?_) _
    rw [List.take_of_length_le (by rw [length_runList, hlen]), ← BitonicSorter.merge_eq]
    rwa [MergedSorted, load_mergeHeavyOf h] at hsorted
  have hbit : ∀ i < N * 2, i = 0 ∨ N ≤ i →
      threshold (OrderDual.toDual (list 0).size) ((fun x : Item => OrderDual.toDual x.size) ∘
        seq ⟨0, 0⟩ (load (reverseHalfOf N list) 0 (N * 2))) i =
          decide ((list (Equiv.swap N 0 i)).size ≤ (list 0).size) := by
    intro i hi hend
    have hseq : seq ⟨0, 0⟩ (load (reverseHalfOf N list) 0 (N * 2)) i = list (Equiv.swap N 0 i) := by
      rw [seq, List.getD_eq_getElem?_getD, getElem?_load _ _ hi, Option.getD_some, Nat.zero_add,
        reverseHalfOf_apply h2 list hend]
    rw [threshold, Function.comp_apply, hseq]
    rfl
  refine mergeNet_cutOff BitonicSorter.half_halves (fun e he => h ⟨e, he⟩) (by omega) le_rfl (by omega) ?_ ?_ ?_ hnet
  · have hle := hl.le_first (show 2 ^ Nat.clog 2 N - N < N by omega)
    rw [Nat.add_sub_cancel' hroom.le] at hle
    rw [hbit 0 (by omega) (Or.inl rfl), Equiv.swap_apply_right]
    exact decide_eq_false (not_le.mpr (hlt.trans_le hle))
  · rw [hbit N (by omega) (Or.inr le_rfl), Equiv.swap_apply_left]
    exact decide_eq_true le_rfl
  · rw [hhalf, hbit _ htop (Or.inr hroom.le), Equiv.swap_apply_of_ne_of_ne (by omega) (by omega)]
    exact decide_eq_false (not_le.mpr hlt)

end Merged

def zerosOnes (N i : Nat) : Item := if i < N then ⟨0, 0⟩ else ⟨0, 1⟩

theorem zerosOnes_sorted (N : Nat) : HalvesSorted N (zerosOnes N) := by
  constructor
  · refine List.pairwise_map.mpr (List.Pairwise.imp_of_mem ?_ (List.pairwise_lt_range (n := N)))
    intro i j hi hj _
    rw [List.mem_range] at hi hj
    rw [zerosOnes, zerosOnes, if_pos (by omega), if_pos (by omega)]
  · refine List.pairwise_map.mpr (List.Pairwise.imp_of_mem ?_ (List.pairwise_lt_range (n := N)))
    intro i j _ _ _
    rw [zerosOnes, zerosOnes, if_neg (by omega), if_neg (by omega)]

/-- **The merge of the heavy lists**, compiled for `N` entries a list: it is right for all lists exactly when `N` is a power
of two. It always keeps the entries; and with any other `N` no lists come out in order of which the second has the larger sizes.
The size of a message is an `int`, so `8 * N` bytes of each list leave `N` far below `2 ^ 29`. -/
theorem mergeHeavyOf_spec {N : Nat} (h1 : 1 ≤ N) (hN : N ≤ 2 ^ 29) :
    ((∀ list, HalvesSorted N list →
        (load (mergeHeavyOf N list) 0 (N * 2)).Perm (load list 0 (N * 2)) ∧ MergedSorted N list) ↔ ∃ e, N = 2 ^ e) ∧
      (∀ list, (load (mergeHeavyOf N list) 0 (N * 2)).Perm (load list 0 (N * 2))) ∧
      ((∀ e, N ≠ 2 ^ e) → ∀ list, HalvesSorted N list → (list 0).size < (list (2 ^ Nat.clog 2 N)).size →
        ¬MergedSorted N list) := by
  refine ⟨⟨fun hall => ?_, fun hpo2 list hl => ⟨mergeHeavyOf_perm h1, mergedSorted_po2 hN hpo2 hl⟩⟩,
    fun list => mergeHeavyOf_perm h1, fun hpo2 list hl => not_mergedSorted h1 hN (fun ⟨e, he⟩ => hpo2 e he) hl⟩
  by_contra h
  have hroom : N ≤ 2 ^ Nat.clog 2 N := Nat.le_pow_clog (by decide) N
  refine not_mergedSorted h1 hN h (zerosOnes_sorted N) ?_ (hall _ (zerosOnes_sorted N)).2
  rw [zerosOnes, zerosOnes, if_pos (by omega), if_neg (by omega)]
  decide

theorem mergeHeavyOf_spec_three :
    ((∀ list, HalvesSorted 3 list →
        (load (mergeHeavyOf 3 list) 0 (3 * 2)).Perm (load list 0 (3 * 2)) ∧ MergedSorted 3 list) ↔ ∃ e, 3 = 2 ^ e) ∧
      (∀ list, (load (mergeHeavyOf 3 list) 0 (3 * 2)).Perm (load list 0 (3 * 2))) ∧
      ((∀ e, 3 ≠ 2 ^ e) → ∀ list, HalvesSorted 3 list → (list 0).size < (list (2 ^ Nat.clog 2 3)).size →
        ¬MergedSorted 3 list) :=
  mergeHeavyOf_spec (by decide) (by decide)

/-- Three entries a list, the larger ones in the second: a size 1 is left behind a size 0. -/
theorem mergeHeavyOf_disorder :
    HalvesSorted 3 (zerosOnes 3) ∧
      (load (mergeHeavyOf 3 (zerosOnes 3)) 0 (3 * 2)).map Item.size = [1, 1, 0, 0, 1, 0] ∧ ¬MergedSorted 3 (zerosOnes 3) := by
  have hsizes : (load (mergeHeavyOf 3 (zerosOnes 3)) 0 (3 * 2)).map Item.size = [1, 1, 0, 0, 1, 0] := by decide +kernel
  refine ⟨zerosOnes_sorted 3, hsizes, fun h => ?_⟩
  have hpair : ((load (mergeHeavyOf 3 (zerosOnes 3)) 0 (3 * 2)).map Item.size).Pairwise fun x y => y ≤ x :=
    List.pairwise_map.mpr h
  rw [hsizes] at hpair
  exact absurd hpair (by decide)

end FOSketch.Heavy
