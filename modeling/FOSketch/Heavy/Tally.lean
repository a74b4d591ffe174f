import FOSketch.Heavy.Distribution
import FOSketch.Loop
import FOSketch.Tally

/-!
# Tallies of the heavy list

`TestHeavyCountDist` looks for the size of an item among all records there can be, adds one to the record it finds, and in
the same pass writes a record behind the last one if it finds none. It leaves the sizes in the order of their first
occurrences (`TestHeavyCountDist_eq`). `TestHeavyCountDist_NO` appends a record for every item, also when it has counted the
item in an earlier one, so that its records are a tally only of sizes without repetition (`TestHeavyCountDist_NO_iff`).
-/

namespace FOSketch.Heavy

open Memory Slots

/-! ## The routines -/

/-- A turn of the inner loop of `TestHeavyCountDist` for an item of the size `size`; the records come with `isFound`. -/
def countTurn (size : U32) (numSize : Bid) (t : (Nat → CDist) × Bool) (j : Nat) : (Nat → CDist) × Bool :=
  let CountHeavy := t.1
  -- out of bound
  let cond := OMove true false (decide (numSize.val < j))
  let cond := !cond && !t.2 && (CountHeavy j).size == size
  let CountHeavy := Function.update CountHeavy j { CountHeavy j with count := (CountHeavy j).count + OMove 1 0 cond }
  let isFound := OMove true t.2 cond
  let cond := j == numSize.val && !isFound
  let CountHeavy := Function.update CountHeavy (j + 1)
    ⟨OMove size (CountHeavy (j + 1)).size cond, OMove 1 (CountHeavy (j + 1)).count cond⟩
  (CountHeavy, isFound)

/-- A turn of the outer loop; the records come with `numSize`, the index of the last one. -/
def countItem (HeavyHitterList : Nat → Item) (t : (Nat → CDist) × Bid) (i : Nat) : (Nat → CDist) × Bid :=
  let r := (List.range i).foldl (countTurn (HeavyHitterList i).size t.2) (t.1, false)
  (r.1, t.2 + OMove 0 1 r.2)

/-- `TestHeavyCountDist` for a list of `numHeavy` items. -/
def TestHeavyCountDist (HeavyHitterList : Nat → Item) (numHeavy : Nat) (CountHeavy : Nat → CDist) : Nat → CDist :=
  let CountHeavy := Function.update CountHeavy 0 ⟨(HeavyHitterList 0).size, 1⟩
  ((List.range' 1 (numHeavy - 1)).foldl (countItem HeavyHitterList) (CountHeavy, 0)).1

/-- The inner loop of `TestHeavyCountDist_NO` over the indices `js`. -/
def countFirst (size : U32) (CountHeavy : Nat → CDist) : List Nat → Nat → CDist
  | [] => CountHeavy
  | j :: js =>
    if (CountHeavy j).size = size then
      Function.update CountHeavy j { CountHeavy j with count := (CountHeavy j).count + 1 }
    else countFirst size CountHeavy js

/-- A turn of its outer loop; here `numSize` is the number of records. -/
def appendItem (HeavyHitterList : Nat → Item) (t : (Nat → CDist) × Bid) (i : Nat) : (Nat → CDist) × Bid :=
  let CountHeavy := countFirst (HeavyHitterList i).size t.1 (List.range t.2.val)
  (Function.update CountHeavy t.2.val ⟨(HeavyHitterList i).size, 1⟩, t.2 + 1)

/-- `TestHeavyCountDist_NO` for a list of `numHeavy` items: the records and `numSize`. -/
def TestHeavyCountDist_NO (HeavyHitterList : Nat → Item) (numHeavy : Nat) (CountHeavy : Nat → CDist) :
    (Nat → CDist) × Bid :=
  let CountHeavy := Function.update CountHeavy 0 ⟨(HeavyHitterList 0).size, 1⟩
  (List.range' 1 (numHeavy - 1)).foldl (appendItem HeavyHitterList) (CountHeavy, 1)

/-- `TestHeavyCountDist_SORT`: what `OItemCountDist_DESC` writes to `CountHeavy`. -/
def TestHeavyCountDist_SORT (HeavyHitterList : List Item) : List CDist :=
  OItemCountDist_DESC (BitonicSorter.sort smallerItem HeavyHitterList HeavyHitterList.length)

/-! ## Records -/

def sizesOf (HeavyHitterList : Nat → Item) (num : Nat) : List U32 := (load HeavyHitterList 0 num).map Item.size

@[simp] theorem length_sizesOf (list : Nat → Item) (num : Nat) : (sizesOf list num).length = num := by
  rw [sizesOf, List.length_map, length_load]

theorem sizesOf_succ (list : Nat → Item) (num : Nat) : sizesOf list (num + 1) = sizesOf list num ++ [(list num).size] := by
  rw [sizesOf, load_succ, List.map_append, Nat.zero_add]
  rfl

def pairOf (c : CDist) : U32 × Nat := (c.size, c.count.val)

theorem pairOf_injective : Function.Injective pairOf := by
  rintro ⟨s, c⟩ ⟨s', c'⟩ h
  obtain ⟨rfl, hc⟩ := Prod.mk.inj h
  exact congrArg (CDist.mk s) (Fin.ext hc)

/-- The records `r` have every size of `l` once, with its multiplicity. -/
def Tallies (l : List U32) (r : List CDist) : Prop := IsTally l (r.map pairOf)

theorem tallies_map {l ks : List U32} (hl : ∀ x ∈ l, l.count x < 4294967296) (hks : ks.Nodup) (hmem : ∀ x, x ∈ ks ↔ x ∈ l) :
    Tallies l (ks.map (sizeRecord l)) := by
  have hpairs : (ks.map (sizeRecord l)).map pairOf = ks.map fun x => (x, l.count x) := by
    rw [List.map_map]
    apply List.map_congr_left
    intro x hx
    exact congrArg (Prod.mk x) (Nat.mod_eq_of_lt (hl x ((hmem x).mp hx)))
  rw [Tallies, hpairs]
  exact isTally_map hks hmem

theorem count_lt_of_length {l : List U32} (hl : l.length < 4294967296) : ∀ x ∈ l, l.count x < 4294967296 :=
  fun _ _ => List.count_le_length.trans_lt hl

theorem Tallies.mem_iff {l : List U32} {r : List CDist} (h : Tallies l r) (c : CDist) :
    c ∈ r ↔ c.size ∈ l ∧ c.count.val = l.count c.size := by
  rw [← List.mem_map_of_injective pairOf_injective, IsTally.mem_iff h]
  rfl

theorem sizeRecord_concat_self (l : List U32) (x : U32) :
    sizeRecord (l ++ [x]) x = { sizeRecord l x with count := (sizeRecord l x).count + 1 } := by
  unfold sizeRecord
  congr 1
  apply Fin.ext
  rw [List.count_append, List.count_singleton_self, Fin.val_add, Fin.val_ofNat, Fin.val_ofNat]
  exact (Nat.mod_add_mod _ _ _).symm

theorem sizeRecord_concat_of_ne {x y : U32} (h : y ≠ x) (l : List U32) : sizeRecord (l ++ [x]) y = sizeRecord l y := by
  unfold sizeRecord
  rw [List.count_append, List.count_singleton, beq_eq_false_iff_ne.mpr (Ne.symm h)]
  rfl

theorem sizeRecord_concat_new {x : U32} {l : List U32} (h : x ∉ l) : sizeRecord (l ++ [x]) x = ⟨x, 1⟩ := by
  rw [sizeRecord_concat_self, sizeRecord, List.count_eq_zero.mpr h]
  rfl

def addTo (x : U32) (c : CDist) : CDist := if c.size = x then { c with count := c.count + 1 } else c

theorem addTo_sizeRecord (l : List U32) (x y : U32) : addTo x (sizeRecord l y) = sizeRecord (l ++ [x]) y := by
  show (if y = x then _ else _) = _
  by_cases hy : y = x
  · rw [hy, if_pos rfl, sizeRecord_concat_self]
  · rw [if_neg hy, sizeRecord_concat_of_ne hy]

/-- Where the sizes are distinct, adding one to the record of a size is adding one at its index. -/
theorem load_update_addTo {CountHeavy : Nat → CDist} {n p : Nat} (hn : ((load CountHeavy 0 n).map CDist.size).Nodup)
    (hp : p < n) :
    load (Function.update CountHeavy p { CountHeavy p with count := (CountHeavy p).count + 1 }) 0 n =
      (load CountHeavy 0 n).map (addTo (CountHeavy p).size) := by
  rw [load, load, List.map_map]
  apply List.map_congr_left
  intro k hk
  rw [List.mem_range] at hk
  rw [Function.comp_apply, Nat.zero_add]
  by_cases hkp : k = p
  · rw [hkp, Function.update_self, addTo, if_pos rfl]
  · have hne : (CountHeavy k).size ≠ (CountHeavy p).size := by
      intro he
      apply hkp
      apply (List.getElem?_inj (by simpa using hk) hn).mp
      rw [List.getElem?_map, List.getElem?_map, getElem?_load _ _ hk, getElem?_load _ _ hp, Nat.zero_add, Nat.zero_add,
        Option.map_some, Option.map_some, he]
    rw [Function.update_of_ne hkp, addTo, if_neg hne]

theorem exists_first {CountHeavy : Nat → CDist} {n : Nat} {x : U32} (h : x ∈ (load CountHeavy 0 n).map CDist.size) :
    ∃ p < n, (CountHeavy p).size = x ∧ ∀ j < p, (CountHeavy j).size ≠ x := by
  have hex : ∃ p, p < n ∧ (CountHeavy p).size = x := by
    obtain ⟨c, hc, rfl⟩ := List.mem_map.mp h
    obtain ⟨p, hp, rfl⟩ := List.mem_map.mp hc
    exact ⟨p, List.mem_range.mp hp, by rw [Nat.zero_add]⟩
  obtain ⟨hp, hx⟩ := Nat.find_spec hex
  refine ⟨Nat.find hex, hp, hx, fun j hj he => ?_⟩
  exact Nat.find_min hex hj ⟨hj.trans hp, he⟩

theorem ne_of_notMem {CountHeavy : Nat → CDist} {n : Nat} {x : U32} (h : x ∉ (load CountHeavy 0 n).map CDist.size) :
    ∀ j < n, (CountHeavy j).size ≠ x := by
  rintro j hj rfl
  apply h
  apply List.mem_map.mpr
  exact ⟨CountHeavy j, List.mem_map.mpr ⟨j, List.mem_range.mpr hj, by rw [Nat.zero_add]⟩, rfl⟩

/-! ## The oblivious tally -/

section Oblivious
variable {size : U32} {numSize : Bid} {CountHeavy : Nat → CDist}

/-- A record that is out of bound, of another size, or comes after a match. -/
theorem countTurn_skip {isFound : Bool} {j : Nat}
    (h : numSize.val < j ∨ isFound = true ∨ (CountHeavy j).size ≠ size) (hlast : j ≠ numSize.val ∨ isFound = true) :
    countTurn size numSize (CountHeavy, isFound) j = (CountHeavy, isFound) := by
  have hcond : (!(decide (numSize.val < j)) && !isFound && (CountHeavy j).size == size) = false := by
    rcases h with h | h | h <;> simp [h]
  have hend : (j == numSize.val && !isFound) = false := by
    rcases hlast with h | h <;> simp [h]
  have hmove : OMove true false (decide (numSize.val < j)) = decide (numSize.val < j) := by
    cases decide (numSize.val < j) <;> rfl
  unfold countTurn
  simp only [hmove, hcond, OMove_false, hend, add_zero, Function.update_eq_self]

theorem countTurn_hit {j : Nat} (hj : j ≤ numSize.val) (hsize : (CountHeavy j).size = size) :
    countTurn size numSize (CountHeavy, false) j =
      (Function.update CountHeavy j { CountHeavy j with count := (CountHeavy j).count + 1 }, true) := by
  have hlt : decide (numSize.val < j) = false := decide_eq_false (not_lt.mpr hj)
  unfold countTurn
  simp [hlt, hsize]

theorem countTurn_last (hsize : (CountHeavy numSize.val).size ≠ size) :
    countTurn size numSize (CountHeavy, false) numSize.val =
      (Function.update CountHeavy (numSize.val + 1) ⟨size, 1⟩, false) := by
  have hcond : ((CountHeavy numSize.val).size == size) = false := beq_eq_false_iff_ne.mpr hsize
  unfold countTurn
  simp [hcond]

theorem countScan_found {p i : Nat} (hp : p ≤ numSize.val) (hi : numSize.val < i) (hsize : (CountHeavy p).size = size)
    (hbefore : ∀ j < p, (CountHeavy j).size ≠ size) :
    (List.range i).foldl (countTurn size numSize) (CountHeavy, false) =
      (Function.update CountHeavy p { CountHeavy p with count := (CountHeavy p).count + 1 }, true) := by
  rw [Loop.range_split (hp.trans_lt hi), List.foldl_append, List.foldl_cons]
  have hskip : (List.range p).foldl (countTurn size numSize) (CountHeavy, false) = (CountHeavy, false) := by
    apply Loop.foldl_of_fixed
    intro j hj
    rw [List.mem_range] at hj
    exact countTurn_skip (Or.inr (Or.inr (hbefore j hj))) (Or.inl (hj.trans_le hp).ne)
  rw [hskip, countTurn_hit hp hsize]
  apply Loop.foldl_of_fixed
  exact fun j _ => countTurn_skip (Or.inr (Or.inl rfl)) (Or.inr rfl)

/-- The pass of an item of a new size; what lies behind the records does not matter. -/
theorem countScan_new {i : Nat} (hi : numSize.val < i) (hnone : ∀ j < numSize.val + 1, (CountHeavy j).size ≠ size) :
    (List.range i).foldl (countTurn size numSize) (CountHeavy, false) =
      (Function.update CountHeavy (numSize.val + 1) ⟨size, 1⟩, false) := by
  rw [Loop.range_split hi, List.foldl_append, List.foldl_cons]
  have hskip : (List.range numSize.val).foldl (countTurn size numSize) (CountHeavy, false) = (CountHeavy, false) := by
    apply Loop.foldl_of_fixed
    intro j hj
    rw [List.mem_range] at hj
    exact countTurn_skip (Or.inr (Or.inr (hnone j (by omega)))) (Or.inl hj.ne)
  rw [hskip, countTurn_last (hnone _ (Nat.lt_succ_self _))]
  apply Loop.foldl_of_fixed
  intro j hj
  have hlt : numSize.val < j := by
    rw [List.mem_range'_1] at hj
    omega
  exact countTurn_skip (Or.inl hlt) (Or.inl hlt.ne')

end Oblivious

/-- The records are those of the items in `l`, and `numSize` is the index of the last one. -/
structure Counted (l : List U32) (t : (Nat → CDist) × Bid) : Prop where
  numSize : t.2.val + 1 = (firsts l).length
  records : load t.1 0 (firsts l).length = (firsts l).map (sizeRecord l)

theorem Counted.sizes {l : List U32} {t : (Nat → CDist) × Bid} (h : Counted l t) :
    (load t.1 0 (t.2.val + 1)).map CDist.size = firsts l := by
  rw [h.numSize, h.records, List.map_map]
  exact List.map_id (firsts l)

/-- **One item** is counted in the record of its size or gets a new one. -/
theorem Counted.countItem {list : Nat → Item} {t : (Nat → CDist) × Bid} {i : Nat} (hi : i < 65536)
    (h : Counted (sizesOf list i) t) : Counted (sizesOf list (i + 1)) (countItem list t i) := by
  have hle := length_firsts_le (sizesOf list i)
  have hsizes := h.sizes
  have hnum := h.numSize
  rw [length_sizesOf] at hle
  obtain ⟨CountHeavy, numSize⟩ := t
  dsimp only at hsizes hnum
  unfold Heavy.countItem
  dsimp only
  rw [sizesOf_succ]
  generalize (list i).size = x
  by_cases hx : x ∈ sizesOf list i
  · obtain ⟨p, hp, hsize, hbefore⟩ := exists_first (hsizes.symm ▸ mem_firsts.mpr hx)
    have hnodup : ((load CountHeavy 0 (numSize.val + 1)).map CDist.size).Nodup := hsizes ▸ nodup_firsts _
    have hload := load_update_addTo hnodup hp
    have hfirsts : firsts (sizesOf list i ++ [x]) = firsts (sizesOf list i) := by rw [firsts_concat, if_pos hx]
    rw [countScan_found (by omega) (by omega) hsize hbefore, OMove_true, add_zero]
    refine ⟨hfirsts ▸ hnum, ?_⟩
    rw [hfirsts, ← hnum, hload, hsize, hnum, h.records, List.map_map]
    exact List.map_congr_left fun y _ => addTo_sizeRecord _ x y
  · have hnone := ne_of_notMem (hsizes.symm ▸ mt mem_firsts.mp hx)
    have hfirsts : firsts (sizesOf list i ++ [x]) = firsts (sizesOf list i) ++ [x] := by rw [firsts_concat, if_neg hx]
    have hsucc : (numSize + 1).val = numSize.val + 1 := by
      show (numSize.val + 1) % 65536 = _
      omega
    rw [countScan_new (by omega) hnone, OMove_false]
    refine ⟨?_, ?_⟩
    · rw [hfirsts, List.length_append, List.length_singleton, ← hnum]
      exact congrArg (· + 1) hsucc
    · have hload := load_update_end CountHeavy 0 (numSize.val + 1) ⟨x, 1⟩
      rw [Nat.zero_add] at hload
      rw [hfirsts, List.length_append, List.length_singleton, ← hnum, hload, hnum, h.records, List.map_append,
        List.map_singleton, sizeRecord_concat_new hx]
      congr 1
      apply List.map_congr_left
      intro y hy
      exact (sizeRecord_concat_of_ne (ne_of_mem_of_not_mem (mem_firsts.mp hy) hx) _).symm

theorem counted_first (list : Nat → Item) (CountHeavy : Nat → CDist) :
    Counted (sizesOf list 1) (Function.update CountHeavy 0 ⟨(list 0).size, 1⟩, 0) := by
  have hsizes : sizesOf list 1 = [] ++ [(list 0).size] := sizesOf_succ list 0
  have hload := load_update_end CountHeavy 0 0 ⟨(list 0).size, 1⟩
  refine ⟨by rw [hsizes]; rfl, ?_⟩
  rw [hsizes, firsts_concat, if_neg List.not_mem_nil, firsts_nil, List.nil_append, List.length_singleton,
    List.map_singleton, ← List.nil_append [(list 0).size], sizeRecord_concat_new List.not_mem_nil]
  exact hload

/-- **The records** of `numHeavy` items are their sizes in the order of the first occurrences, whatever `CountHeavy` held. -/
theorem TestHeavyCountDist_eq (list : Nat → Item) {numHeavy : Nat} (hpos : 1 ≤ numHeavy) (hle : numHeavy ≤ 65535)
    (CountHeavy : Nat → CDist) :
    load (TestHeavyCountDist list numHeavy CountHeavy) 0 (firsts (sizesOf list numHeavy)).length =
      (firsts (sizesOf list numHeavy)).map (sizeRecord (sizesOf list numHeavy)) := by
  have hend : Counted (sizesOf list (numHeavy - 1 + 1)) ((List.range' 1 (numHeavy - 1)).foldl (countItem list)
      (Function.update CountHeavy 0 ⟨(list 0).size, 1⟩, 0)) := by
    apply Loop.foldl_range'_done (P := fun n => Counted (sizesOf list (n + 1))) (counted_first list CountHeavy)
    intro k hk t ht
    rw [Nat.add_comm 1 k]
    exact ht.countItem (by omega)
  rw [Nat.sub_add_cancel hpos] at hend
  exact hend.records

theorem tallies_TestHeavyCountDist (list : Nat → Item) {numHeavy : Nat} (hpos : 1 ≤ numHeavy) (hle : numHeavy ≤ 65535)
    (CountHeavy : Nat → CDist) :
    Tallies (sizesOf list numHeavy)
      (load (TestHeavyCountDist list numHeavy CountHeavy) 0 (firsts (sizesOf list numHeavy)).length) := by
  rw [TestHeavyCountDist_eq list hpos hle]
  apply tallies_map _ (nodup_firsts _) fun _ => mem_firsts
  apply count_lt_of_length
  rw [length_sizesOf]
  omega

/-! ### The tally of the sorted list -/

theorem OItemCountDist_DESC_perm (l : List Item) :
    (OItemCountDist_DESC l).Perm (runCounts (fun x y => decide (y < x)) 0 true (l.map Item.size)) := by
  rw [OItemCountDist_DESC, countRuns_eq]
  split_ifs
  · exact OddEvenMergeSorter.sort_perm _ _ _
  · exact BitonicSorter.sort_perm _ _ _

/-- Sorting the list first and counting the runs gives the same records, those of `MAX_SIZE` aside. -/
theorem mem_TestHeavyCountDist_SORT {l : List Item} (hl : l.length ≤ 2 ^ 30) {c : CDist} (hc : c.size < MAX_SIZE) :
    c ∈ TestHeavyCountDist_SORT l ↔ c.size ∈ l.map Item.size ∧ c.count.val = (l.map Item.size).count c.size := by
  have hperm : (BitonicSorter.sort smallerItem l l.length).Perm l := BitonicSorter.sort_perm _ _ _
  have hsorted := BitonicSorter.sort_pairwise smallerItem_compares hl
  have hdesc : ((BitonicSorter.sort smallerItem l l.length).map Item.size).Pairwise fun x y => y ≤ x :=
    List.pairwise_map.mpr hsorted
  rw [TestHeavyCountDist_SORT, (OItemCountDist_DESC_perm _).mem_iff]
  have hsizes := hperm.map Item.size
  have hlen : ((BitonicSorter.sort smallerItem l l.length).map Item.size).length < 4294967296 := by
    rw [hsizes.length_eq, List.length_map]
    omega
  generalize (BitonicSorter.sort smallerItem l l.length).map Item.size = sorted at hdesc hsizes hlen
  have hanti : ∀ x y : U32, y ≤ x → x ≤ y → x = y := fun x y hyx hxy => le_antisymm hxy hyx
  have hdiff : ∀ x y : U32, y ≤ x → (decide (y < x) = true ↔ x ≠ y) := fun x y hyx => by
    rw [decide_eq_true_iff, hyx.lt_iff_ne, ne_comm]
  have hruns := occupants_runCounts hanti hdiff hdesc
  have hcounted : counted c = true := bne_iff_ne.mpr hc.ne
  have htally : Tallies sorted (sorted.dedup.map (sizeRecord sorted)) :=
    tallies_map (count_lt_of_length hlen) (List.nodup_dedup _) fun _ => List.mem_dedup
  rw [← hsizes.mem_iff, ← hsizes.count_eq, ← htally.mem_iff]
  have hmem : c ∈ occupants counted (runCounts (fun x y => decide (y < x)) 0 true sorted) ↔
      c ∈ runCounts (fun x y => decide (y < x)) 0 true sorted := by
    rw [mem_occupants]
    exact and_iff_left hcounted
  rw [← hmem, hruns, List.mem_map, List.mem_map]
  constructor
  · rintro ⟨x, hx, rfl⟩
    exact ⟨x, (List.mem_filter.mp hx).1, rfl⟩
  · rintro ⟨x, hx, rfl⟩
    exact ⟨x, List.mem_filter.mpr ⟨hx, bne_iff_ne.mpr hc.ne⟩, rfl⟩

/-- **The quadratic tally**: the sizes in the order of their first occurrences with their multiplicities, which are the pairs
of the sorted list. -/
theorem TestHeavyCountDist_spec (list : Nat → Item) {numHeavy : Nat} (hpos : 1 ≤ numHeavy) (hle : numHeavy ≤ 65535)
    (CountHeavy : Nat → CDist) :
    let l := sizesOf list numHeavy
    let r := load (TestHeavyCountDist list numHeavy CountHeavy) 0 (firsts l).length
    r.map CDist.size = firsts l ∧ Tallies l r ∧
      ∀ c, c.size < MAX_SIZE → (c ∈ r ↔ c ∈ TestHeavyCountDist_SORT (load list 0 numHeavy)) := by
  have htally := tallies_TestHeavyCountDist list hpos hle CountHeavy
  refine ⟨?_, htally, fun c hc => ?_⟩
  · rw [TestHeavyCountDist_eq list hpos hle, List.map_map]
    exact List.map_id _
  · rw [htally.mem_iff, mem_TestHeavyCountDist_SORT (by rw [length_load]; omega) hc]
    rfl

/-- Sizes 5, 2, 5 over records of an earlier list. -/
theorem TestHeavyCountDist_spec_three :
    let list : Nat → Item := fun i => ⟨0, if i = 1 then 2 else 5⟩
    let l := sizesOf list 3
    let r := load (TestHeavyCountDist list 3 fun _ => ⟨5, 9⟩) 0 (firsts l).length
    r.map CDist.size = firsts l ∧ Tallies l r ∧
      ∀ c, c.size < MAX_SIZE → (c ∈ r ↔ c ∈ TestHeavyCountDist_SORT (load list 0 3)) :=
  TestHeavyCountDist_spec _ (by decide) (by decide) _

/-! ## The plain tally -/

theorem countFirst_size (size : U32) (CountHeavy : Nat → CDist) (js : List Nat) (k : Nat) :
    (countFirst size CountHeavy js k).size = (CountHeavy k).size := by
  induction js with
  | nil => rfl
  | cons j js ih =>
    unfold countFirst
    split_ifs
    · by_cases hk : k = j
      · rw [hk, Function.update_self]
      · rw [Function.update_of_ne hk]
    · exact ih

theorem countFirst_none {size : U32} {CountHeavy : Nat → CDist} {js : List Nat} (h : ∀ j ∈ js, (CountHeavy j).size ≠ size) :
    countFirst size CountHeavy js = CountHeavy := by
  induction js with
  | nil => rfl
  | cons j js ih =>
    rw [countFirst, if_neg (h j List.mem_cons_self)]
    exact ih fun k hk => h k (List.mem_cons_of_mem j hk)

/-- A record for every item of `l`, each counting one if all sizes differ. -/
structure Appended (l : List U32) (t : (Nat → CDist) × Bid) : Prop where
  numSize : t.2.val = l.length
  sizes : (load t.1 0 l.length).map CDist.size = l
  ones : l.Nodup → load t.1 0 l.length = l.map fun x => ⟨x, 1⟩

theorem Appended.appendItem {list : Nat → Item} {t : (Nat → CDist) × Bid} {i : Nat} (hi : i < 65535)
    (h : Appended (sizesOf list i) t) : Appended (sizesOf list (i + 1)) (appendItem list t i) := by
  obtain ⟨hnum, hsizes, hones⟩ := h
  obtain ⟨CountHeavy, numSize⟩ := t
  rw [length_sizesOf] at hnum hsizes hones
  dsimp only at hnum hsizes hones
  unfold Heavy.appendItem
  rw [sizesOf_succ]
  generalize (list i).size = x
  dsimp only
  rw [hnum]
  have hlen : (sizesOf list i ++ [x]).length = i + 1 := by
    rw [List.length_append, length_sizesOf, List.length_singleton]
  have hsucc : (numSize + 1).val = i + 1 := by
    show (numSize.val + 1) % 65536 = _
    omega
  have hload := load_update_end (countFirst x CountHeavy (List.range i)) 0 i ⟨x, 1⟩
  rw [Nat.zero_add] at hload
  refine ⟨hsucc.trans hlen.symm, ?_, fun hnodup => ?_⟩
  · have hkept : (load (countFirst x CountHeavy (List.range i)) 0 i).map CDist.size =
        (load CountHeavy 0 i).map CDist.size := by
      rw [load, load, List.map_map, List.map_map]
      exact List.map_congr_left fun k _ => countFirst_size x CountHeavy _ _
    rw [hlen, hload, List.map_append, hkept, hsizes]
    rfl
  · rw [List.nodup_append] at hnodup
    have hnone : ∀ j ∈ List.range i, (CountHeavy j).size ≠ x := by
      intro j hj
      apply ne_of_notMem _ j (List.mem_range.mp hj)
      rw [hsizes]
      exact fun hx => hnodup.2.2 x hx x (List.mem_singleton_self x) rfl
    rw [countFirst_none hnone] at hload ⊢
    rw [hlen, hload, hones hnodup.1, List.map_append]
    rfl

theorem appended_first (list : Nat → Item) (CountHeavy : Nat → CDist) :
    Appended (sizesOf list 1) (Function.update CountHeavy 0 ⟨(list 0).size, 1⟩, 1) := by
  have hsizes : sizesOf list 1 = [(list 0).size] := sizesOf_succ list 0
  have hload : load (Function.update CountHeavy 0 ⟨(list 0).size, 1⟩) 0 1 = [⟨(list 0).size, 1⟩] :=
    load_update_end CountHeavy 0 0 _
  rw [hsizes]
  exact ⟨rfl, congrArg (List.map CDist.size) hload, fun _ => hload⟩

theorem appended_TestHeavyCountDist_NO (list : Nat → Item) {numHeavy : Nat} (hpos : 1 ≤ numHeavy) (hle : numHeavy ≤ 65535)
    (CountHeavy : Nat → CDist) : Appended (sizesOf list numHeavy) (TestHeavyCountDist_NO list numHeavy CountHeavy) := by
  have hend : Appended (sizesOf list (numHeavy - 1 + 1)) ((List.range' 1 (numHeavy - 1)).foldl (appendItem list)
      (Function.update CountHeavy 0 ⟨(list 0).size, 1⟩, 1)) := by
    apply Loop.foldl_range'_done (P := fun n => Appended (sizesOf list (n + 1))) (appended_first list CountHeavy)
    intro k hk t ht
    rw [Nat.add_comm 1 k]
    exact ht.appendItem (by omega)
  rwa [Nat.sub_add_cancel hpos] at hend

/-- **The plain tally is one**, and the one of `TestHeavyCountDist`, exactly if no size is repeated. -/
theorem TestHeavyCountDist_NO_iff (list : Nat → Item) {numHeavy : Nat} (hpos : 1 ≤ numHeavy) (hle : numHeavy ≤ 65535)
    (CountHeavy CountHeavy' : Nat → CDist) :
    let l := sizesOf list numHeavy
    let t := TestHeavyCountDist_NO list numHeavy CountHeavy
    let r := load t.1 0 t.2.val
    (Tallies l r ∧ ∀ c, c ∈ r ↔ c ∈ load (TestHeavyCountDist list numHeavy CountHeavy') 0 (firsts l).length) ↔
      l.Nodup := by
  intro l t r
  have happended : Appended l t := appended_TestHeavyCountDist_NO list hpos hle CountHeavy
  obtain ⟨hnum, hsizes, hones⟩ := happended
  have hobl := tallies_TestHeavyCountDist list hpos hle CountHeavy'
  have hr : r = load t.1 0 l.length := congrArg (load t.1 0) hnum
  rw [hr]
  constructor
  · rintro ⟨htally, -⟩
    have hnodup := htally.nodup
    rw [List.map_map] at hnodup
    change ((load t.1 0 l.length).map CDist.size).Nodup at hnodup
    rwa [hsizes] at hnodup
  · intro hnodup
    have htally : Tallies l (load t.1 0 l.length) := by
      rw [Tallies, hones hnodup, List.map_map]
      exact isTally_of_nodup hnodup
    refine ⟨htally, fun c => ?_⟩
    rw [htally.mem_iff, hobl.mem_iff]

/-- Sizes 5 and 2. -/
theorem TestHeavyCountDist_NO_iff_two :
    let list : Nat → Item := fun i => ⟨0, if i = 0 then 5 else 2⟩
    let l := sizesOf list 2
    let t := TestHeavyCountDist_NO list 2 fun _ => ⟨0, 0⟩
    let r := load t.1 0 t.2.val
    (Tallies l r ∧ ∀ c, c ∈ r ↔ c ∈ load (TestHeavyCountDist list 2 fun _ => ⟨0, 0⟩) 0 (firsts l).length) ↔ l.Nodup :=
  TestHeavyCountDist_NO_iff _ (by decide) (by decide) _ _

/-- Two items of size 5 give the records `(5, 2)` and `(5, 1)`. -/
theorem TestHeavyCountDist_NO_repeats :
    let list : Nat → Item := fun _ => ⟨0, 5⟩
    let t := TestHeavyCountDist_NO list 2 fun _ => ⟨0, 0⟩
    load t.1 0 t.2.val = [⟨5, 2⟩, ⟨5, 1⟩] ∧ ¬Tallies (sizesOf list 2) (load t.1 0 t.2.val) := by
  intro list t
  have hload : load t.1 0 t.2.val = [⟨5, 2⟩, ⟨5, 1⟩] := by decide
  refine ⟨hload, fun h => ?_⟩
  have hnodup := h.nodup
  rw [hload] at hnodup
  exact absurd hnodup (by decide)

end FOSketch.Heavy
