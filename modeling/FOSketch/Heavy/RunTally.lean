import FOSketch.Heavy.ChangeMap
import FOSketch.Heavy.Tally

/-!
# The tally of the sorted list with narrow counters

`TestHeavyCountDist_NO_ORD` sorts the list and starts a record where the size is not `curSize`, a `uint16_t`: every item of a
size from `2 ^ 16` on gets a record of its own (`ordRecords`). The index `numSize` of the last record is a `uint16_t`, too,
so that only the last lap of the records is left (`lastLap`). Within these bounds the records are those of
`TestHeavyCountDist_NO_MAP` (`TestHeavyCountDist_NO_ORD_iff`).
-/

namespace FOSketch.Heavy

open Memory Slots

/-! ## The routines -/

/-- A turn of `TestHeavyCountDist_NO_ORD` for an item of the size `size`; the records come with `numSize` and `curSize`. -/
def ordTurn (t : (Nat → CDist) × Bid × Bid) (size : U32) : (Nat → CDist) × Bid × Bid :=
  let CountHeavy := t.1
  let numSize := t.2.1
  let curSize := t.2.2
  if curSize.val = size.val then
    (Function.update CountHeavy numSize.val
      { CountHeavy numSize.val with count := (CountHeavy numSize.val).count + 1 }, numSize, curSize)
  else
    let numSize := numSize + 1
    (Function.update CountHeavy numSize.val ⟨size, 1⟩, numSize, toBid size.val)

/-- `TestHeavyCountDist_NO_ORD`: the records and `numSize`, the index of the last one. -/
def TestHeavyCountDist_NO_ORD (HList : List Item) (CountHeavy : Nat → CDist) : (Nat → CDist) × Bid :=
  match HList.mergeSort fun x y => decide (x.size ≤ y.size) with
  | [] => (CountHeavy, 0)
  | x :: HHList =>
    let t := (HHList.map Item.size).foldl ordTurn (Function.update CountHeavy 0 ⟨x.size, 1⟩, 0, toBid x.size.val)
    (t.1, t.2.1)

/-- The map of `TestHeavyCountDist_NO_MAP` after the items of a list. -/
def countSizes (HList : List Item) : StatMap :=
  HList.foldl (fun result_map x => result_map.insert x.size ((result_map.lookup x.size).getD 0 + 1)) ∅

/-- `TestHeavyCountDist_NO_MAP`: the records it writes. -/
def TestHeavyCountDist_NO_MAP (HList : List Item) : List CDist :=
  ((countSizes HList).entries.map fun it => (⟨it.1, it.2⟩ : CDist)).mergeSort fun x y => decide (x.size ≤ y.size)

/-! ## The map -/

theorem lookup_countSizes (l : List Item) (x : U32) :
    (countSizes l).lookup x = if x ∈ l.map Item.size then some (sizeRecord (l.map Item.size) x).count else none := by
  induction l using List.reverseRecOn with
  | nil => rfl
  | append_singleton l y ih =>
    have hstep : countSizes (l ++ [y]) =
        (countSizes l).insert y.size (((countSizes l).lookup y.size).getD 0 + 1) := by
      rw [countSizes, List.foldl_append]
      rfl
    rw [hstep, List.map_append, List.map_singleton]
    by_cases hx : x = y.size
    · subst hx
      rw [AList.lookup_insert, if_pos (by simp), ih, sizeRecord_concat_self]
      by_cases hmem : y.size ∈ l.map Item.size
      · rw [if_pos hmem, Option.getD_some]
      · rw [if_neg hmem, Option.getD_none, sizeRecord, List.count_eq_zero.mpr hmem]
        rfl
    · have hmem : (x ∈ l.map Item.size ++ [y.size]) ↔ x ∈ l.map Item.size := by simp [hx]
      rw [AList.lookup_insert_ne hx, ih, sizeRecord_concat_of_ne hx]
      simp only [hmem]

/-- The map has every size with its multiplicity, and the records are in increasing order of size. -/
theorem TestHeavyCountDist_NO_MAP_spec (l : List Item) :
    ((TestHeavyCountDist_NO_MAP l).Pairwise fun c d => c.size < d.size) ∧
      ∀ c, c ∈ TestHeavyCountDist_NO_MAP l ↔ c.size ∈ l.map Item.size ∧ c = sizeRecord (l.map Item.size) c.size := by
  have hperm : (TestHeavyCountDist_NO_MAP l).Perm ((countSizes l).entries.map fun it => (⟨it.1, it.2⟩ : CDist)) :=
    List.mergeSort_perm _ _
  have hsorted : (TestHeavyCountDist_NO_MAP l).Pairwise fun c d => c.size ≤ d.size :=
    List.pairwise_mergeSort' (Order.Preimage CDist.size (· ≤ ·)) _
  have hkeys : ((TestHeavyCountDist_NO_MAP l).map CDist.size).Nodup := by
    rw [(hperm.map CDist.size).nodup_iff, List.map_map]
    exact (countSizes l).nodupKeys
  refine ⟨?_, fun c => ?_⟩
  · exact (hsorted.and (List.pairwise_map.mp hkeys)).imp fun h => lt_of_le_of_ne h.1 h.2
  · have hlookup : c ∈ TestHeavyCountDist_NO_MAP l ↔ c.count ∈ (countSizes l).lookup c.size := by
      rw [hperm.mem_iff, List.mem_map, AList.mem_lookup_iff]
      constructor
      · rintro ⟨it, hit, rfl⟩
        exact hit
      · exact fun h => ⟨_, h, rfl⟩
    rw [hlookup, lookup_countSizes, Option.mem_def]
    split_ifs with hmem
    · rw [Option.some.injEq]
      constructor
      · intro h
        exact ⟨hmem, congrArg (CDist.mk c.size) h.symm⟩
      · exact fun h => (congrArg CDist.count h.2).symm
    · exact iff_of_false (by simp) fun h => hmem h.1

/-! ## The records of the runs -/

/-- The records the sorted list leaves when no index wraps: `c` is the record of the run in progress. -/
def ordRecords : CDist → List U32 → List CDist
  | c, [] => [c]
  | c, size :: l =>
    if (toBid c.size.val).val = size.val then ordRecords { c with count := c.count + 1 } l else c :: ordRecords ⟨size, 1⟩ l

def lastLap (r : List CDist) : List CDist := r.drop ((r.length - 1) / 65536 * 65536)

theorem ordRecords_ne_nil (c : CDist) (l : List U32) : ordRecords c l ≠ [] := by
  induction l generalizing c with
  | nil => exact List.cons_ne_nil c []
  | cons size l ih =>
    unfold ordRecords
    split_ifs
    · exact ih _
    · exact List.cons_ne_nil _ _

theorem lastLap_of_le {r : List CDist} (h : r.length ≤ 65536) : lastLap r = r := by
  have hdiv : (r.length - 1) / 65536 = 0 := by omega
  rw [lastLap, hdiv, Nat.zero_mul, List.drop_zero]

/-- A full lap is overwritten by the next record. -/
theorem lastLap_append {r r' : List CDist} (hr : r.length = 65536) (hr' : r' ≠ []) : lastLap (r ++ r') = lastLap r' := by
  have hpos := List.length_pos_iff.mpr hr'
  have hdiv : (65536 + r'.length - 1) / 65536 * 65536 = r.length + (r'.length - 1) / 65536 * 65536 := by omega
  rw [lastLap, lastLap, List.length_append, hr, hdiv, List.drop_append, List.drop_eq_nil_of_le (Nat.le_add_right _ _),
    List.nil_append, Nat.add_sub_cancel_left]

/-- **The loop** leaves the last lap of the records. -/
theorem foldl_ordTurn (l : List U32) {CountHeavy : Nat → CDist} {numSize : Bid} {c : CDist}
    (hc : CountHeavy numSize.val = c) :
    let t := l.foldl ordTurn (CountHeavy, numSize, toBid c.size.val)
    load t.1 0 (t.2.1.val + 1) = lastLap (load CountHeavy 0 numSize.val ++ ordRecords c l) := by
  induction l generalizing CountHeavy numSize c with
  | nil =>
    have hlen : (load CountHeavy 0 numSize.val ++ [c]).length ≤ 65536 := by
      rw [List.length_append, length_load, List.length_singleton]
      omega
    rw [ordRecords, lastLap_of_le hlen, ← hc]
    show load CountHeavy 0 (numSize.val + 1) = _
    rw [load_succ, Nat.zero_add]
  | cons size l ih =>
    rw [List.foldl_cons]
    by_cases hsize : (toBid c.size.val).val = size.val
    · have hturn : ordTurn (CountHeavy, numSize, toBid c.size.val) size =
          (Function.update CountHeavy numSize.val { c with count := c.count + 1 }, numSize, toBid c.size.val) := by
        rw [← hc] at hsize ⊢
        exact if_pos hsize
      have hkept : load (Function.update CountHeavy numSize.val { c with count := c.count + 1 }) 0 numSize.val =
          load CountHeavy 0 numSize.val := load_update_outside _ (Or.inr (by omega)) _
      have hrest := ih (c := { c with count := c.count + 1 })
        (Function.update_self numSize.val { c with count := c.count + 1 } CountHeavy)
      rw [hkept] at hrest
      rw [hturn, ordRecords, if_pos hsize]
      exact hrest
    · -- a record starts, at index 0 again after `2 ^ 16` of them
      have hturn : ordTurn (CountHeavy, numSize, toBid c.size.val) size =
          (Function.update CountHeavy (numSize + 1).val ⟨size, 1⟩, numSize + 1, toBid size.val) := if_neg hsize
      have hrest := ih (c := ⟨size, 1⟩) (Function.update_self (numSize + 1).val (⟨size, 1⟩ : CDist) CountHeavy)
      rw [hturn, ordRecords, if_neg hsize]
      refine hrest.trans ?_
      have hdone : load CountHeavy 0 numSize.val ++ c :: ordRecords ⟨size, 1⟩ l =
          load CountHeavy 0 (numSize.val + 1) ++ ordRecords ⟨size, 1⟩ l := by
        rw [load_succ, Nat.zero_add, hc, List.append_assoc, List.singleton_append]
      have hval : (numSize + 1).val = (numSize.val + 1) % 65536 := rfl
      have hkept : load (Function.update CountHeavy (numSize + 1).val ⟨size, 1⟩) 0 (numSize + 1).val =
          load CountHeavy 0 (numSize + 1).val := load_update_outside _ (Or.inr (by omega)) _
      rw [hdone, hkept, hval]
      by_cases hwrap : numSize.val = 65535
      · rw [hwrap, lastLap_append (length_load _ _ _) (ordRecords_ne_nil _ l)]
        rfl
      · rw [Nat.mod_eq_of_lt (by omega)]

theorem count_ordRecords {z : U32} (hz : 65536 ≤ z.val) (c : CDist) (l : List U32) :
    ((ordRecords c l).map CDist.size).count z = (c.size :: l).count z := by
  induction l generalizing c with
  | nil => rfl
  | cons size l ih =>
    unfold ordRecords
    split_ifs with hsize
    · have hne : size ≠ z := by
        rintro rfl
        rw [toBid_val] at hsize
        omega
      rw [ih, List.count_cons, List.count_cons, List.count_cons_of_ne hne]
    · rw [List.map_cons, List.count_cons, ih, List.count_cons, List.count_cons, List.count_cons]

/-- Every record that is left out is an item that is not counted. -/
theorem sum_drop_ordRecords (l : List U32) {c : CDist} {items k : Nat} (hitems : 1 ≤ items) (hc : c.count.val ≤ items)
    (hk : k ≤ (ordRecords c l).length) :
    (((ordRecords c l).drop k).map fun c => c.count.val).sum + k ≤ items + l.length := by
  induction l generalizing c items k with
  | nil =>
    rcases k with _ | k
    · simpa [ordRecords] using hc
    · simp [ordRecords] at hk ⊢
      omega
  | cons size l ih =>
    rw [List.length_cons]
    unfold ordRecords at hk ⊢
    split_ifs at hk ⊢ with hsize
    · have hcount : (c.count + 1).val ≤ items + 1 := by
        rw [Fin.val_add]
        exact (Nat.mod_le _ _).trans (Nat.add_le_add_right hc 1)
      have h := ih (c := { c with count := c.count + 1 }) (by omega) hcount hk
      omega
    · rcases k with _ | k
      · have h := ih (c := ⟨size, 1⟩) (k := 0) le_rfl le_rfl (Nat.zero_le _)
        rw [List.drop_zero] at h ⊢
        rw [List.map_cons, List.sum_cons]
        omega
      · rw [List.length_cons] at hk
        have h := ih (c := ⟨size, 1⟩) (k := k) le_rfl le_rfl (by omega)
        rw [List.drop_succ_cons]
        omega

/-- While no size from `2 ^ 16` on comes twice, there is one record for each size. -/
theorem ordRecords_eq {x : U32} {l : List U32} (hl : (x :: l).Pairwise (· ≤ ·))
    (hlarge : ∀ z : U32, 65536 ≤ z.val → (x :: l).count z ≤ 1) (run : Nat) :
    ordRecords ⟨x, Fin.ofNat 4294967296 run⟩ l = (x :: l).dedup.map (runRecord l x run) := by
  induction l generalizing x run with
  | nil =>
    rw [List.dedup_cons_of_notMem List.not_mem_nil, List.dedup_nil, List.map_singleton, ordRecords, runRecord, if_pos rfl,
      List.count_nil, Nat.zero_add]
  | cons y l ih =>
    obtain ⟨hx, hl'⟩ := List.pairwise_cons.mp hl
    have hxy : x.val ≤ y.val := hx y List.mem_cons_self
    have hlarge' : ∀ z : U32, 65536 ≤ z.val → (y :: l).count z ≤ 1 := fun z hz =>
      ((List.sublist_cons_self x (y :: l)).count_le z).trans (hlarge z hz)
    unfold ordRecords
    split_ifs with hsize
    · have heq : x = y := by
        change x.val % 65536 = y.val at hsize
        apply Fin.ext
        omega
      subst heq
      have hrun : (Fin.ofNat 4294967296 run + 1 : U32) = Fin.ofNat 4294967296 (run + 1) := by
        apply Fin.ext
        rw [Fin.val_add, Fin.val_ofNat, Fin.val_ofNat]
        exact Nat.mod_add_mod _ _ _
      rw [hrun, ih hl' hlarge', List.dedup_cons_of_mem List.mem_cons_self]
      exact List.map_congr_left fun z _ => runRecord_succ l x run z
    · -- a larger size comes, and `x` does not come again
      have hne : x ≠ y := by
        rintro rfl
        change ¬x.val % 65536 = x.val at hsize
        have htwo := hlarge x (by omega)
        rw [List.count_cons_self, List.count_cons_self] at htwo
        omega
      have hnot : x ∉ y :: l := by
        intro hmem
        rcases List.mem_cons.mp hmem with h | h
        · exact hne h
        · exact hne (le_antisymm hxy ((List.pairwise_cons.mp hl').1 x h))
      have hone : (1 : U32) = Fin.ofNat 4294967296 1 := rfl
      rw [hone, ih hl' hlarge', List.dedup_cons_of_notMem hnot, List.map_cons]
      congr 1
      · rw [runRecord, if_pos rfl, List.count_eq_zero.mpr hnot, Nat.zero_add]
      · apply List.map_congr_left
        intro z hz
        have hzx : z ≠ x := ne_of_mem_of_not_mem (List.mem_dedup.mp hz) hnot
        rw [← runRecord_zero y hzx, ← runRecord_succ l y 0 z]

/-! ## The agreement -/

/-- The sizes the counters of `TestHeavyCountDist_NO_ORD` are wide enough for. -/
structure Narrow (l : List U32) : Prop where
  large : ∀ x ∈ l, 65536 ≤ x.val → l.count x = 1
  distinct : l.dedup.length ≤ 65536
  count : ∀ x ∈ l, l.count x < 4294967296

theorem Narrow.of_perm {l l' : List U32} (h : Narrow l) (hl : l.Perm l') : Narrow l' := by
  refine ⟨fun x hx => ?_, ?_, fun x hx => ?_⟩
  · rw [← hl.count_eq]
    exact h.large x (hl.mem_iff.mpr hx)
  · rw [← hl.dedup.length_eq]
    exact h.distinct
  · rw [← hl.count_eq]
    exact h.count x (hl.mem_iff.mpr hx)

/-- A tally counts every item, so no record was left out. -/
theorem length_ordRecords_le {x : U32} {l : List U32} (h : Tallies (x :: l) (lastLap (ordRecords ⟨x, 1⟩ l))) :
    (ordRecords ⟨x, 1⟩ l).length ≤ 65536 := by
  have hsum := h.sum
  rw [List.map_map, List.length_cons] at hsum
  have hle : (ordRecords ⟨x, 1⟩ l).length - 1 < (ordRecords ⟨x, 1⟩ l).length :=
    Nat.sub_lt (List.length_pos_iff.mpr (ordRecords_ne_nil _ l)) Nat.one_pos
  have hdrop := sum_drop_ordRecords l (c := ⟨x, 1⟩) (k := ((ordRecords ⟨x, 1⟩ l).length - 1) / 65536 * 65536) le_rfl
    le_rfl (by omega)
  change ((lastLap (ordRecords ⟨x, 1⟩ l)).map fun c => c.count.val).sum = l.length + 1 at hsum
  change ((lastLap (ordRecords ⟨x, 1⟩ l)).map fun c => c.count.val).sum + _ ≤ 1 + l.length at hdrop
  omega

theorem Tallies.nodup_sizes {l : List U32} {r : List CDist} (h : Tallies l r) : (r.map CDist.size).Nodup := by
  have hn := h.nodup
  rwa [List.map_map] at hn

theorem Narrow.ordRecords_eq {x : U32} {l : List U32} (h : Narrow (x :: l)) (hl : (x :: l).Pairwise (· ≤ ·)) :
    ordRecords ⟨x, 1⟩ l = (x :: l).dedup.map (sizeRecord (x :: l)) := by
  have hlarge : ∀ z : U32, 65536 ≤ z.val → (x :: l).count z ≤ 1 := by
    intro z hz
    by_cases hmem : z ∈ x :: l
    · exact (h.large z hmem hz).le
    · rw [List.count_eq_zero.mpr hmem]
      exact Nat.zero_le 1
  have heq := Heavy.ordRecords_eq hl hlarge 1
  refine Eq.trans heq (List.map_congr_left fun z _ => ?_)
  rw [← Nat.zero_add 1, runRecord_succ, runRecord, ite_self]
  rfl

/-- The records of a sorted list are a tally exactly within the bounds. -/
theorem tallies_lastLap_iff {x : U32} {l : List U32} (hl : (x :: l).Pairwise (· ≤ ·)) :
    Tallies (x :: l) (lastLap (ordRecords ⟨x, 1⟩ l)) ↔ Narrow (x :: l) := by
  constructor
  · intro h
    have hlen := length_ordRecords_le h
    rw [lastLap_of_le hlen] at h
    refine ⟨fun z hz hlarge => ?_, ?_, fun z hz => ?_⟩
    · have hone := List.nodup_iff_count_le_one.mp h.nodup_sizes z
      have hpos := List.count_pos_iff.mpr hz
      rw [count_ordRecords hlarge] at hone
      change (x :: l).count z ≤ 1 at hone
      omega
    · have hperm := (h.perm (isTally_dedup (x :: l))).length_eq
      rw [List.length_map, List.length_map] at hperm
      omega
    · have hmem : (z, (x :: l).count z) ∈ (ordRecords ⟨x, 1⟩ l).map pairOf :=
        (IsTally.mem_iff h (z, (x :: l).count z)).mpr ⟨hz, rfl⟩
      obtain ⟨c, -, hc⟩ := List.mem_map.mp hmem
      have hcount : c.count.val = (x :: l).count z := congrArg Prod.snd hc
      omega
  · intro h
    have hrecords := h.ordRecords_eq hl
    have hlen : (ordRecords ⟨x, 1⟩ l).length ≤ 65536 := by
      rw [hrecords, List.length_map]
      exact h.distinct
    rw [lastLap_of_le hlen, hrecords]
    exact tallies_map h.count (List.nodup_dedup _) fun _ => List.mem_dedup

theorem mergeSort_sizes (l : List Item) :
    ((l.mergeSort fun x y => decide (x.size ≤ y.size)).map Item.size).Pairwise (· ≤ ·) ∧
      ((l.mergeSort fun x y => decide (x.size ≤ y.size)).map Item.size).Perm (l.map Item.size) := by
  refine ⟨?_, (List.mergeSort_perm _ _).map _⟩
  rw [List.pairwise_map]
  exact List.pairwise_mergeSort' (Order.Preimage Item.size (· ≤ ·)) l

/-- What the sort and the scan leave of a list that is not empty. -/
theorem TestHeavyCountDist_NO_ORD_eq {HList : List Item} (h : HList ≠ []) (CountHeavy : Nat → CDist) :
    ∃ x l, (x :: l).Pairwise (· ≤ ·) ∧ (x :: l).Perm (HList.map Item.size) ∧
      load (TestHeavyCountDist_NO_ORD HList CountHeavy).1 0 ((TestHeavyCountDist_NO_ORD HList CountHeavy).2.val + 1) =
        lastLap (ordRecords ⟨x, 1⟩ l) := by
  obtain ⟨hsorted, hperm⟩ := mergeSort_sizes HList
  unfold TestHeavyCountDist_NO_ORD
  cases hlist : HList.mergeSort fun x y => decide (x.size ≤ y.size) with
  | nil =>
    rw [hlist] at hperm
    exact absurd (List.map_eq_nil_iff.mp hperm.symm.eq_nil) h
  | cons x l =>
    rw [hlist] at hsorted hperm
    refine ⟨x.size, l.map Item.size, hsorted, hperm, ?_⟩
    have hfirst : Function.update CountHeavy 0 ⟨x.size, 1⟩ (0 : Bid).val = ⟨x.size, 1⟩ := Function.update_self ..
    exact foldl_ordTurn (l.map Item.size) hfirst

theorem size_mem_of_mem_ordRecords {c d : CDist} {l : List U32} (h : d ∈ ordRecords c l) : d.size ∈ c.size :: l := by
  induction l generalizing c with
  | nil =>
    rw [List.mem_singleton.mp h]
    exact List.mem_cons_self
  | cons y l ih =>
    unfold ordRecords at h
    split_ifs at h
    · rcases List.mem_cons.mp (ih h) with h | h
      · exact List.mem_cons.mpr (Or.inl h)
      · exact List.mem_cons_of_mem _ (List.mem_cons_of_mem y h)
    · rcases List.mem_cons.mp h with rfl | h
      · exact List.mem_cons_self
      · exact List.mem_cons_of_mem _ (ih h)

theorem ordRecords_pairwise {c : CDist} {l : List U32} (hl : (c.size :: l).Pairwise (· ≤ ·)) :
    (ordRecords c l).Pairwise fun c d => c.size ≤ d.size := by
  induction l generalizing c with
  | nil => exact List.pairwise_singleton _ _
  | cons y l ih =>
    obtain ⟨hc, hl'⟩ := List.pairwise_cons.mp hl
    unfold ordRecords
    split_ifs
    · exact ih (List.pairwise_cons.mpr ⟨fun z hz => hc z (List.mem_cons_of_mem y hz), (List.pairwise_cons.mp hl').2⟩)
    · rw [List.pairwise_cons]
      exact ⟨fun d hd => hc d.size (size_mem_of_mem_ordRecords hd), ih (c := ⟨y, 1⟩) hl'⟩

/-- Records in increasing order that are a tally are those of the map. -/
theorem eq_TestHeavyCountDist_NO_MAP {HList : List Item} {r : List CDist}
    (hcount : ∀ x ∈ HList.map Item.size, (HList.map Item.size).count x < 4294967296)
    (htally : Tallies (HList.map Item.size) r) (hlt : r.Pairwise fun c d => c.size < d.size) :
    r = TestHeavyCountDist_NO_MAP HList := by
  obtain ⟨hmap, hmem⟩ := TestHeavyCountDist_NO_MAP_spec HList
  have hsame : ∀ c, c ∈ r ↔ c ∈ TestHeavyCountDist_NO_MAP HList := by
    intro c
    rw [htally.mem_iff, hmem]
    refine and_congr_right fun hc => ?_
    have hval : (sizeRecord (HList.map Item.size) c.size).count.val = (HList.map Item.size).count c.size :=
      Nat.mod_eq_of_lt (hcount c.size hc)
    constructor
    · exact fun he => congrArg (CDist.mk c.size) (Fin.ext (he.trans hval.symm))
    · intro he
      rw [← hval]
      exact congrArg (fun d : CDist => d.count.val) he
  have hrn : r.Nodup := htally.nodup_sizes.of_map
  have hmn : (TestHeavyCountDist_NO_MAP HList).Nodup := hmap.imp fun hcd he => absurd (he ▸ hcd) (lt_irrefl _)
  apply ((List.perm_ext_iff_of_nodup hrn hmn).mpr hsame).eq_of_pairwise _ hlt hmap
  intro c d _ _ hcd hdc
  exact absurd (hcd.trans hdc) (lt_irrefl _)

/-- **The sort and the scan** leave one record for each size, in increasing order and as `TestHeavyCountDist_NO_MAP` does,
exactly if the sizes are narrow. -/
theorem TestHeavyCountDist_NO_ORD_iff {HList : List Item} (h : HList ≠ []) (CountHeavy : Nat → CDist) :
    let t := TestHeavyCountDist_NO_ORD HList CountHeavy
    let r := load t.1 0 (t.2.val + 1)
    (Tallies (HList.map Item.size) r ∧ (r.Pairwise fun c d => c.size < d.size) ∧ r = TestHeavyCountDist_NO_MAP HList) ↔
      Narrow (HList.map Item.size) := by
  intro t r
  obtain ⟨x, l, hsorted, hperm, hr⟩ := TestHeavyCountDist_NO_ORD_eq h CountHeavy
  change r = lastLap (ordRecords ⟨x, 1⟩ l) at hr
  have hiff : Tallies (HList.map Item.size) r ↔ Narrow (HList.map Item.size) := by
    rw [hr]
    constructor
    · intro ht
      exact ((tallies_lastLap_iff hsorted).mp (IsTally.of_perm ht hperm.symm)).of_perm hperm
    · intro hn
      exact IsTally.of_perm ((tallies_lastLap_iff hsorted).mpr (hn.of_perm hperm.symm)) hperm
  constructor
  · exact fun ht => hiff.mp ht.1
  · intro hn
    have htally := hiff.mpr hn
    have hlt : r.Pairwise fun c d => c.size < d.size := by
      have hle : r.Pairwise fun c d => c.size ≤ d.size := by
        rw [hr]
        exact (ordRecords_pairwise (c := ⟨x, 1⟩) hsorted).sublist (List.drop_sublist _ _)
      exact (hle.and (List.pairwise_map.mp htally.nodup_sizes)).imp fun hcd => lt_of_le_of_ne hcd.1 hcd.2
    exact ⟨htally, hlt, eq_TestHeavyCountDist_NO_MAP hn.count htally hlt⟩

/-- Two items of size 3 and one of size 70000. -/
theorem TestHeavyCountDist_NO_ORD_iff_three :
    let HList : List Item := [⟨0, 3⟩, ⟨1, 70000⟩, ⟨2, 3⟩]
    let t := TestHeavyCountDist_NO_ORD HList fun _ => ⟨0, 0⟩
    let r := load t.1 0 (t.2.val + 1)
    (Tallies (HList.map Item.size) r ∧ (r.Pairwise fun c d => c.size < d.size) ∧ r = TestHeavyCountDist_NO_MAP HList) ↔
      Narrow (HList.map Item.size) :=
  TestHeavyCountDist_NO_ORD_iff (by simp) _

/-- Two items of size 65536, whose low 16 bits are those of size 0, get a record each. -/
theorem TestHeavyCountDist_NO_ORD_wide :
    let HList : List Item := [⟨0, 65536⟩, ⟨1, 65536⟩]
    let t := TestHeavyCountDist_NO_ORD HList fun _ => ⟨0, 0⟩
    load t.1 0 (t.2.val + 1) = [⟨65536, 1⟩, ⟨65536, 1⟩] ∧ TestHeavyCountDist_NO_MAP HList = [⟨65536, 2⟩] ∧
      ¬Tallies (HList.map Item.size) (load t.1 0 (t.2.val + 1)) := by
  intro HList t
  have hsort : HList.mergeSort (fun x y => decide (x.size ≤ y.size)) = HList := List.mergeSort_of_pairwise (by decide)
  have ht : t = (Function.update (Function.update (fun _ => ⟨0, 0⟩) 0 ⟨65536, 1⟩) 1 ⟨65536, 1⟩, 1) := by
    show TestHeavyCountDist_NO_ORD HList _ = _
    rw [TestHeavyCountDist_NO_ORD, hsort]
    rfl
  have hload : load t.1 0 (t.2.val + 1) = [⟨65536, 1⟩, ⟨65536, 1⟩] := by
    rw [ht]
    rfl
  have hmap : TestHeavyCountDist_NO_MAP HList = [⟨65536, 2⟩] := by
    have hentries : (countSizes HList).entries.map (fun it => (⟨it.1, it.2⟩ : CDist)) = [⟨65536, 2⟩] := by decide +kernel
    rw [TestHeavyCountDist_NO_MAP, hentries, List.mergeSort_singleton]
  refine ⟨hload, hmap, fun h => ?_⟩
  have hnodup := h.nodup
  rw [hload] at hnodup
  exact absurd hnodup (by decide)

end FOSketch.Heavy
