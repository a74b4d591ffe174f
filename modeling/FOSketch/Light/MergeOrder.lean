import FOSketch.Light.Refines
import FOSketch.Network.TwoRuns

/-!
# When the bitonic merge puts the blocks in order

With a number of light blocks that is no power of two, `OUpdateCUSketch_BEx` merges two ascending halves with the bitonic
merger, which wants the lower one descending. `MergeInOrder` says for which heavy items the blocks come out in order all
the same; it looks at how many light blocks below each id the items hit.
-/

namespace FOSketch.Light

open Network Keyed

/-- Some of the flows is hashed into the light block `b`. -/
def isHit (hash : U32 → U32) (n : Nat) (flows : List U32) (b : Nat) : Bool :=
  flows.any fun f => (hash f).val % (60 * n) / 60 == b

/-- The number of light blocks below `t` that the flows hit. -/
def hits (hash : U32 → U32) (n : Nat) (flows : List U32) (t : Nat) : Nat :=
  ((List.range t).filter fun b => isHit hash n flows b).length

/-- Below every `t`, either no light block is hit or the merger puts the `t` light and the hit heavy blocks in order. -/
def MergeInOrder (hash : U32 → U32) (n : Nat) (flows : List U32) : Prop :=
  ∀ t < n, hits hash n flows t = 0 ∨ (n + hits hash n flows t ≤ 2 ^ Nat.log 2 (n * 2) ∧
    mergesTwoRuns (Nat.log 2 (n * 2)) t n (hits hash n flows t) = true)

instance (hash : U32 → U32) (n : Nat) (flows : List U32) : Decidable (MergeInOrder hash n flows) :=
  inferInstanceAs (Decidable (∀ t < n, _))

theorem hits_le (hash : U32 → U32) (n : Nat) (flows : List U32) (t : Nat) : hits hash n flows t ≤ t :=
  (List.length_filter_le _ _).trans (List.length_range).le

/-- A number that is no power of two lies strictly between two of them. -/
theorem log_bounds {n : Nat} (h0 : 0 < n) (hn : testPo2 n = false) :
    n < 2 ^ Nat.log 2 (n * 2) ∧ 2 ^ Nat.log 2 (n * 2) < n * 2 := by
  have h1 := Nat.pow_log_le_self 2 (show n * 2 ≠ 0 by omega)
  have h2 := Nat.lt_pow_succ_log_self (b := 2) (by omega) (n * 2)
  have hne : ∀ e, n ≠ 2 ^ e := fun e he => by
    rw [testPo2_iff.mpr ⟨e, he⟩] at hn
    exact Bool.noConfusion hn
  rw [pow_succ] at h2
  refine ⟨by omega, lt_of_le_of_ne h1 fun he => ?_⟩
  obtain ⟨e, hlog⟩ : ∃ e, Nat.log 2 (n * 2) = e + 1 :=
    ⟨Nat.log 2 (n * 2) - 1, by have := Nat.log_pos (b := 2) (by omega) (show 2 ≤ n * 2 by omega); omega⟩
  rw [hlog, pow_succ] at he
  exact hne e (by omega)

section Run
variable (hash : U32 → U32) (stack : Nat → Block64) (tmpB : Block64) (pLight : Nat → Byte) {n : Nat}
  {pHeavy : List Item} (h0 : 0 < n) (hn : n ≤ 65535) (hH : pHeavy.length ≤ 2 ^ 30)

theorem mem_fillHeavy {b : Nat} (hb : b < n) (hn : n ≤ 65535) :
    toBid b ∈ (fillHeavy hash (60 * n) pHeavy stack n).map blockMerging.key ↔
      isHit hash n (pHeavy.map Item.flowID) b = true := by
  have hcell : ∀ f : U32, (hash f).val % (60 * n) / 60 < n := fun f => by
    have := Nat.mod_lt (hash f).val (show 0 < 60 * n by omega)
    omega
  rw [fillHeavy, List.map_append, List.mem_append, isHit, List.any_map, List.any_eq_true]
  constructor
  · rintro (h | h)
    · obtain ⟨x, hx, hkey⟩ := List.mem_map.mp h
      obtain ⟨⟨item, i⟩, hp, rfl⟩ := List.mem_map.mp hx
      have hlt := hcell item.flowID
      exact ⟨item, List.fst_mem_of_mem_zipIdx hp,
        beq_iff_eq.mpr ((toBid_inj (by omega) (by omega)).mp (show toBid _ = toBid b from hkey))⟩
    · obtain ⟨x, hx, hkey⟩ := List.mem_map.mp h
      obtain ⟨i, -, rfl⟩ := List.mem_map.mp hx
      exact absurd hkey.symm (toBid_ne_top (by omega))
  · rintro ⟨item, hmem, hkey⟩
    obtain ⟨i, hi, rfl⟩ := List.mem_iff_getElem.mp hmem
    rw [Function.comp_apply, beq_iff_eq] at hkey
    refine .inl (List.mem_map.mpr ⟨heavyBlock hash (60 * n) pHeavy[i] (stack i), List.mem_map.mpr
      ⟨(pHeavy[i], i), ?_, rfl⟩, congrArg toBid hkey⟩)
    exact List.mem_zipIdx_iff_getElem?.mpr (List.getElem?_eq_getElem hi)

include h0 hn hH

theorem mem_heavyKeys {b : Bid} (hb : b ≠ ⊤) : b ∈ (heavyBlocks hash stack tmpB n pHeavy).map blockMerging.key ↔
    b ∈ (fillHeavy hash (60 * n) pHeavy (fun i => stack (n + i)) n).map blockMerging.key := by
  rw [← List.count_pos_iff, count_heavyBlocks hash stack tmpB h0 hn hH hb]
  split_ifs with h
  · exact iff_of_true Nat.one_pos h
  · exact iff_of_false (Nat.lt_irrefl 0) h

/-- **The keys of the heavy blocks** below an id are those that are hit. -/
theorem heavyKeys_perm (T : Bid) :
    (((heavyBlocks hash stack tmpB n pHeavy).map blockMerging.key).filter fun b => decide (b < T)).Perm
      (((List.range (min T.val n)).filter fun b => isHit hash n (pHeavy.map Item.flowID) b).map toBid) := by
  have hnodup : (((heavyBlocks hash stack tmpB n pHeavy).map blockMerging.key).filter fun b => decide (b < T)).Nodup := by
    rw [List.nodup_iff_count_le_one]
    intro b
    by_cases hb : b < T
    · rw [List.count_filter (by simpa using hb), count_heavyBlocks hash stack tmpB h0 hn hH (hb.trans_le le_top).ne]
      split_ifs <;> omega
    · rw [List.count_eq_zero.mpr (by rw [List.mem_filter]; simp [hb])]; omega
  have hnodup' : (((List.range (min T.val n)).filter fun b => isHit hash n (pHeavy.map Item.flowID) b).map toBid).Nodup := by
    refine (List.nodup_range.filter _).map_on fun i hi j hj h => ?_
    rw [List.mem_filter, List.mem_range] at hi hj
    exact (toBid_inj (by omega) (by omega)).mp h
  refine (List.perm_ext_iff_of_nodup hnodup hnodup').mpr fun b => ?_
  rw [List.mem_filter, decide_eq_true_eq, List.mem_map (l := List.filter _ _)]
  constructor
  · rintro ⟨hb, hbT⟩
    have hne : b ≠ ⊤ := (hbT.trans_le le_top).ne
    have hfill := (mem_heavyKeys hash stack tmpB h0 hn hH hne).mp hb
    have hlt : b.val < n := by
      have := ((filled hash stack (fun i => stack (n + i)) (fun _ => 0) h0 hn hH).lt_or_top hfill).resolve_right hne
      rwa [length_lightBlocks] at this
    have hbid : toBid b.val = b := Fin.ext (by rw [toBid_val, Nat.mod_eq_of_lt b.isLt])
    refine ⟨b.val, List.mem_filter.mpr ⟨List.mem_range.mpr (lt_min hbT hlt), ?_⟩, hbid⟩
    rw [← hbid] at hfill
    exact (mem_fillHeavy hash _ hlt hn).mp hfill
  · rintro ⟨i, hi, rfl⟩
    rw [List.mem_filter, List.mem_range, lt_min_iff] at hi
    obtain ⟨⟨hiT, hin⟩, hit⟩ := hi
    refine ⟨(mem_heavyKeys hash stack tmpB h0 hn hH (toBid_ne_top (by omega))).mpr
      ((mem_fillHeavy hash _ hin hn).mpr hit), ?_⟩
    rw [Fin.lt_def, val_toBid hn hin]
    exact hiT

/-- How many heavy blocks come before an id. -/
theorem countP_heavyBlocks (T : Bid) :
    ((heavyBlocks hash stack tmpB n pHeavy).take n).countP (fun x => decide (blockMerging.key x < T)) =
      hits hash n (pHeavy.map Item.flowID) (min T.val n) := by
  have hdrop : ((heavyBlocks hash stack tmpB n pHeavy).drop n).countP
      (fun x => decide (blockMerging.key x < T)) = 0 := by
    rw [List.countP_eq_zero]
    intro x hx
    rw [show blockMerging.key x = ⊤ from drop_heavyBlocks hash stack tmpB h0 hn hH x hx]
    simp
  have hall := congrArg (List.countP fun x => decide (blockMerging.key x < T))
    (List.take_append_drop n (heavyBlocks hash stack tmpB n pHeavy))
  rw [List.countP_append, hdrop, Nat.add_zero] at hall
  have hlen := (heavyKeys_perm hash stack tmpB h0 hn hH T).length_eq
  rw [List.length_map, ← List.countP_eq_length_filter, List.countP_map] at hlen
  rw [hall, hits]
  exact hlen

/-- The threshold bits of the merge input: two runs. -/
theorem twoRuns_mergeInput (T : Bid) :
    TwoRuns (n * 2) (min T.val n) n (hits hash n (pHeavy.map Item.flowID) (min T.val n))
      (threshold T (blockMerging.key ∘ seq tmpB
        (mergeInput (lightBlocks pLight stack n) (heavyBlocks hash stack tmpB n pHeavy)))) := by
  have hlenL := length_lightBlocks pLight stack n
  have hlenH : ((heavyBlocks hash stack tmpB n pHeavy).take n).length = n := by
    rw [List.length_take, min_eq_left (length_le_heavyBlocks hash stack tmpB)]
  intro i hi
  rw [threshold, decide_eq_false_iff_not, not_le, Function.comp_apply, mergeInput, hlenL]
  by_cases hin : i < n
  · rw [seq_append_left tmpB _ (by rwa [hlenL]), seq_of_lt tmpB (by rwa [hlenL])]
    have hkey : blockMerging.key (lightBlocks pLight stack n)[i] = toBid i := by
      simp only [lightBlocks, List.getElem_map, List.getElem_range]; rfl
    rw [hkey, Fin.lt_def, val_toBid hn hin]
    omega
  · obtain ⟨j, rfl⟩ := Nat.exists_eq_add_of_le (not_lt.mp hin)
    have hj : j < ((heavyBlocks hash stack tmpB n pHeavy).take n).length := by rw [hlenH]; omega
    have hsub := (heavyBlocks_pairwise hash stack tmpB h0 hn hH).sublist (List.take_sublist n _)
    have hseq : seq tmpB (lightBlocks pLight stack n ++ (heavyBlocks hash stack tmpB n pHeavy).take n) (n + j) =
        ((heavyBlocks hash stack tmpB n pHeavy).take n)[j] := by
      have := seq_append_right tmpB (lightBlocks pLight stack n)
        ((heavyBlocks hash stack tmpB n pHeavy).take n) j
      rwa [hlenL, seq_of_lt tmpB hj] at this
    rw [hseq, key_lt_iff blockMerging.key hsub hj, countP_heavyBlocks hash stack tmpB h0 hn hH]
    omega

/-- The merge orders the ids from `n` on: the dummies come last. -/
theorem merge_dummies {T : Bid} (hT : n ≤ T.val) : Ascending (n * 2)
    (run gt (mergeNet BitonicSorter.half true (n * 2) (n * 2)) (threshold T (blockMerging.key ∘ seq tmpB
      (mergeInput (lightBlocks pLight stack n) (heavyBlocks hash stack tmpB n pHeavy))))) := by
  have hruns := twoRuns_mergeInput hash stack tmpB pLight h0 hn hH T
  rw [min_eq_right hT] at hruns
  refine mergeNet_run BitonicSorter.half_halves le_rfl (by omega)
    ⟨0, n + hits hash n (pHeavy.map Item.flowID) n, fun i hi => (hruns i hi).trans ?_⟩
  omega

/-- **The bitonic merge** puts the blocks in order exactly when `MergeInOrder` says so. -/
theorem mergedBlocks_pairwise_iff (hpo2 : testPo2 n = false) :
    ((mergedBlocks hash stack tmpB pLight n pHeavy).Pairwise fun x y => x.blockID ≤ y.blockID) ↔
      MergeInOrder hash n (pHeavy.map Item.flowID) := by
  obtain ⟨hlt, hgt⟩ := log_bounds h0 hpo2
  have hlen : (mergeInput (lightBlocks pLight stack n) (heavyBlocks hash stack tmpB n pHeavy)).length = n * 2 :=
    length_input hash stack tmpB pLight
  have hN : n * 2 ≤ 2 ^ 30 := by omega
  have hsorts := pairwise_take_runList greater_SP_compares tmpB
    (mergeNet_below BitonicSorter.half true BitonicSorter.half_halves (n * 2) _ hN) hlen.ge
  rw [List.take_of_length_le (by rw [length_runList, hlen]), ← BitonicSorter.merge_eq, zero_one] at hsorts
  unfold mergedBlocks
  rw [hpo2]
  refine hsorts.trans ⟨fun h t ht => ?_, fun h T => ?_⟩
  · have hruns := twoRuns_mergeInput hash stack tmpB pLight h0 hn hH (toBid t)
    rw [val_toBid hn ht, min_eq_left ht.le] at hruns
    have hle := hits_le hash n (pHeavy.map Item.flowID) t
    rcases Nat.eq_zero_or_pos (hits hash n (pHeavy.map Item.flowID) t) with hz | hz
    · exact .inl hz
    · exact .inr ((mergeNet_twoHalves BitonicSorter.half_halves hlt hgt le_rfl hN (by omega) ht (by omega) hruns).mp
        (h (toBid t)))
  · by_cases hT : n ≤ T.val
    · exact merge_dummies hash stack tmpB pLight h0 hn hH hT
    have hruns := twoRuns_mergeInput hash stack tmpB pLight h0 hn hH T
    rw [min_eq_left (not_le.mp hT).le] at hruns
    have hle := hits_le hash n (pHeavy.map Item.flowID) T.val
    rcases h T.val (not_le.mp hT) with hz | hz
    · rw [hz] at hruns
      refine mergeNet_run BitonicSorter.half_halves le_rfl hN ⟨0, T.val, fun i hi => (hruns i hi).trans ?_⟩
      omega
    · by_cases ht : T.val = 0
      · refine mergeNet_run BitonicSorter.half_halves le_rfl hN ⟨0, 0, fun i hi => (hruns i hi).trans ?_⟩
        omega
      · exact (mergeNet_twoHalves BitonicSorter.half_halves hlt hgt le_rfl hN (by omega) (not_le.mp hT) (by omega)
          hruns).mpr hz

/-- Where the bitonic merge lets the id fall, it falls between ids of light blocks. -/
theorem ne_top_of_descent (hpo2 : testPo2 n = false) {a b : List Block64} {c e : Block64}
    (h : mergedBlocks hash stack tmpB pLight n pHeavy = a ++ c :: e :: b) (hlt : e.blockID < c.blockID) :
    c.blockID ≠ ⊤ := by
  intro hc
  have hlen : (mergeInput (lightBlocks pLight stack n) (heavyBlocks hash stack tmpB n pHeavy)).length = n * 2 :=
    length_input hash stack tmpB pLight
  have hbelow := mergeNet_below BitonicSorter.half true BitonicSorter.half_halves (n * 2) (n * 2) (by omega)
  have hasc := merge_dummies hash stack tmpB pLight h0 hn hH (T := ⊤) (by rw [Fin.top_eq_last, Fin.val_last]; omega)
  rw [← threshold_run, ← run_key greater_SP_compares tmpB (hbelow.mono hlen.ge), ← BitonicSorter.merge_eq] at hasc
  have hmerge : BitonicSorter.merge greater_SP
      (mergeInput (lightBlocks pLight stack n) (heavyBlocks hash stack tmpB n pHeavy)) (n * 2) = a ++ c :: e :: b := by
    rw [← h, mergedBlocks, hpo2]; rfl
  have hlen2 : (a ++ c :: e :: b).length = n * 2 := by rw [← h, length_mergedBlocks]
  rw [List.length_append, List.length_cons, List.length_cons] at hlen2
  have hle := hasc a.length (a.length + 1) (by omega) (by omega)
  rw [hmerge] at hle
  have hseq0 : seq tmpB (a ++ c :: e :: b) a.length = c := seq_append_right tmpB a (c :: e :: b) 0
  have hseq1 : seq tmpB (a ++ c :: e :: b) (a.length + 1) = e := seq_append_right tmpB a (c :: e :: b) 1
  simp only [threshold, Function.comp_apply, hseq0, hseq1] at hle
  rw [show blockMerging.key c = ⊤ from hc, decide_eq_true le_rfl, Bool.le_iff_imp] at hle
  exact absurd (of_decide_eq_true (hle rfl)) (not_le.mpr (hlt.trans_le le_top))

end Run

end FOSketch.Light
