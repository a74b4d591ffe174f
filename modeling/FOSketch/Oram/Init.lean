import FOSketch.Oram.Access
import FOSketch.Slots.Pack

/-!
# `Init_OCU`

The blocks are numbered `0` to `nBlock - 1` and cut into slices, one slice of `2 ^ i` blocks for every binary digit `i` of
`nBlock`, the highest first. Every block draws its leaf, the slice is sorted by the leaves and packed into the `2 ^ i`
buckets of level `i`. A block that finds its bucket full is skipped and counted in `nFailed`. So the loop over a slice
packs it (`foldl_placeTurn`), and the loop over the levels puts the blocks of all slices into their buckets
(`foldl_fillLevel`).
-/

namespace FOSketch.Oram

open Slots Network

/-- `ceil(1.0*size_sk/…)`, exact for every number of blocks that passes the check of the level. For `'L'` the field keeps
its first value. -/
def nBlockOf (sketchType : SketchType) (size_sk sizeBlock : Nat) : Nat :=
  match sketchType with
  | .C => size_sk ⌈/⌉ (sizeBlock - 2 * sizeofBid)
  | .T => size_sk ⌈/⌉ (sizeBlock - sizeofItem)
  | .L => 0

/-- The fields `Init_OCU` sets first; it returns false if the leaves do not fit a `bid_t`. -/
def layoutOf (sketchType : SketchType) (size_sk sizeBlock sizeBucket : Nat) (needComStash : Bool)
    (hsize : ∃ e, 4 ≤ e ∧ e ≤ 15 ∧ sizeBlock = 2 ^ e) : Option Layout :=
  let nBlock := nBlockOf sketchType size_sk sizeBlock
  let level := Nat.log 2 nBlock
  if h : level < sizeofBid * 8 then
    some { sketchType, sizeBlock, sizeBucket, nBlock, level, needComStash, sizeBlock_eq := hsize, level_lt := h }
  else none

/-- What the memory that `malloc` returns holds. -/
structure Memory (L : Layout) where
  sk : Nat → Block L.bytes
  stash : Nat → Block L.bytes
  pos_map : Nat → Bid
  OblivSK : Nat → Block L.bytes

variable {L : Layout}

/-- Block `j` of `sk` with its id, its leaf and its payload. -/
def skBlock (m : Memory L) (pSource : Nat → Byte) (j : Nat) (pos : Bid) : Block L.bytes where
  blockID := toBid j
  pos := pos
  data := fun k =>
    let payload := L.payloadInd - 2 * sizeofBid
    if k.val < payload then (m.sk j).data k else pSource (j * L.nRecord * L.elemSize + (k.val - payload))

def greater_FOS (pi pj : Block L.bytes) : Bool := decide (pj.pos < pi.pos)

/-- What the last loop over a slice changes. `preIndex` starts as `-1`; `count` stays below the length of the slice. -/
structure Placing (L : Layout) where
  OblivSK : List (List (Block L.bytes))
  nFailed : Nat
  count : Nat
  preIndex : Option Nat

/-- That loop for one block. -/
def placeTurn (shift bucket_start : Nat) (t : Placing L) (b : Block L.bytes) : Placing L :=
  let curIndex := b.pos.val >>> shift
  let place (count : Nat) : Placing L :=
    { t with
      OblivSK := t.OblivSK.modify (bucket_start + curIndex) fun bucket => bucket.set count b
      count := count
      preIndex := some curIndex }
  if t.preIndex = some curIndex then
    let count := t.count + 1
    if L.sizeBucket ≤ count then { t with nFailed := t.nFailed + 1, count := count } else place count
  else place 0

structure Filling (L : Layout) where
  pos_map : Nat → Bid
  OblivSK : List (List (Block L.bytes))
  nFailed : Nat
  flag_start : Nat
  bucket_start : Nat

/-- One turn of the loop over the levels; `rand j` is what `rand` returns for block `j`. -/
def fillLevel (m : Memory L) (pSource : Nat → Byte) (rand : Nat → Int) (f : Filling L) (i : Nat) : Filling L :=
  let cur_length := 1 <<< i
  let bucket_end := f.bucket_start
  let bucket_start := bucket_end - cur_length
  if L.nBlock &&& cur_length = 0 then { f with bucket_start := bucket_start }
  else
    let js := List.range' f.flag_start cur_length
    let pos_map := js.foldl (fun pos_map j => Function.update pos_map j (drawLeaf L (rand j))) f.pos_map
    let slice := js.map fun j => skBlock m pSource j (pos_map j)
    let slice := BitonicSorter.sort greater_FOS slice cur_length
    let t := slice.foldl (placeTurn (L.level - i) bucket_start) ⟨f.OblivSK, f.nFailed, L.sizeBucket, none⟩
    { pos_map := pos_map
      OblivSK := t.OblivSK
      nFailed := t.nFailed
      flag_start := f.flag_start + cur_length
      bucket_start := bucket_start }

def emptyTree (m : Memory L) : List (List (Block L.bytes)) :=
  (List.range L.nBucket).map fun k => (List.range L.sizeBucket).map fun j => (m.OblivSK (k * L.sizeBucket + j)).erase

/-- The sketch, and `nFailed`, which the code prints. -/
def Init_OCU (L : Layout) (m : Memory L) (pSource : Nat → Byte) (rand : Nat → Int) : State L × Nat :=
  let f := (List.range (L.level + 1)).reverse.foldl (fillLevel m pSource rand) ⟨m.pos_map, emptyTree m, 0, 0, L.nBucket⟩
  ({ stash := (List.range MAX_STASH_NUM).map fun i => (m.stash i).erase
     length_st := DEFAULT_STASH_LENGTH
     OblivSK := f.OblivSK
     pos_map := f.pos_map }, f.nFailed)

/-! ## One slice -/

/-- The first block of slice `i`: the higher digits of `nBlock`. -/
def sliceStart (nBlock i : Nat) : Nat := nBlock / 2 ^ (i + 1) * 2 ^ (i + 1)

theorem sliceStart_step (nBlock i : Nat) :
    nBlock / 2 ^ i * 2 ^ i = sliceStart nBlock i + if nBlock.testBit i then 2 ^ i else 0 := by
  have hdiv : nBlock / 2 ^ (i + 1) = nBlock / 2 ^ i / 2 := by rw [pow_succ, Nat.div_div_eq_div_mul]
  have hmod := Nat.div_add_mod (nBlock / 2 ^ i) 2
  have hbit : nBlock.testBit i = decide (nBlock / 2 ^ i % 2 = 1) := Nat.testBit_eq_decide_div_mod_eq
  unfold sliceStart
  rw [hbit, hdiv]
  generalize nBlock / 2 ^ i = q at *
  have hlt := Nat.mod_lt q (show 2 > 0 by decide)
  rcases Nat.lt_or_ge (q % 2) 1 with h | h
  · have h0 : q % 2 = 0 := by omega
    rw [if_neg (by simp [h0])]
    conv_lhs => rw [← hmod, h0]
    ring
  · have h1 : q % 2 = 1 := by omega
    rw [if_pos (by simp [h1])]
    conv_lhs => rw [← hmod, h1]
    ring

def slice (m : Memory L) (pSource : Nat → Byte) (rand : Nat → Int) (i : Nat) : List (Block L.bytes) :=
  (List.range' (sliceStart L.nBlock i) (2 ^ i)).map fun j => skBlock m pSource j (drawLeaf L (rand j))

def sortedSlice (m : Memory L) (pSource : Nat → Byte) (rand : Nat → Int) (i : Nat) : List (Block L.bytes) :=
  BitonicSorter.sort greater_FOS (slice m pSource rand i) (2 ^ i)

/-- The bucket of level `i` a block belongs to. -/
def prefixAt (i : Nat) (b : Block L.bytes) : Nat := b.pos.val >>> (L.level - i)

/-- Where the blocks of slice `i` go. -/
def placesAt (m : Memory L) (pSource : Nat → Byte) (rand : Nat → Int) (i : Nat) : List (Put (Block L.bytes)) :=
  (pack (prefixAt i) L.sizeBucket none L.sizeBucket (sortedSlice m pSource rand i)).map fun p =>
    (2 ^ i - 1 + p.1, p.2)

/-- The blocks of slice `i` that find their bucket full. -/
def skippedAt (m : Memory L) (pSource : Nat → Byte) (rand : Nat → Int) (i : Nat) : List (Block L.bytes) :=
  skipped (prefixAt i) L.sizeBucket none L.sizeBucket (sortedSlice m pSource rand i)

/-- What `f` gives for the slices below `n`, the highest slice first. -/
def overSlices {β : Type*} (nBlock n : Nat) (f : Nat → List β) : List β :=
  (List.range n).reverse.flatMap fun i => if nBlock.testBit i then f i else []

theorem overSlices_succ {β : Type*} (nBlock n : Nat) (f : Nat → List β) :
    overSlices nBlock (n + 1) f = (if nBlock.testBit n then f n else []) ++ overSlices nBlock n f := by
  unfold overSlices
  rw [List.range_succ, List.reverse_append, List.reverse_singleton, List.flatMap_append, List.flatMap_singleton]

theorem mem_overSlices {β : Type*} {nBlock n : Nat} {f : Nat → List β} {x : β} :
    x ∈ overSlices nBlock n f ↔ ∃ i < n, nBlock.testBit i = true ∧ x ∈ f i := by
  unfold overSlices
  simp only [List.mem_flatMap, List.mem_reverse, List.mem_range]
  constructor
  · rintro ⟨i, hi, h⟩
    split_ifs at h with hbit
    · exact ⟨i, hi, hbit, h⟩
    · exact absurd h List.not_mem_nil
  · rintro ⟨i, hi, hbit, h⟩
    exact ⟨i, hi, by rwa [if_pos hbit]⟩

/-- Where the blocks of the slices below `n` go. -/
def places (m : Memory L) (pSource : Nat → Byte) (rand : Nat → Int) (n : Nat) : List (Put (Block L.bytes)) :=
  overSlices L.nBlock n (placesAt m pSource rand)

def allSkipped (m : Memory L) (pSource : Nat → Byte) (rand : Nat → Int) (n : Nat) : List (Block L.bytes) :=
  overSlices L.nBlock n (skippedAt m pSource rand)

theorem foldl_update (g : Nat → Bid) (a n : Nat) (pos_map : Nat → Bid) :
    (List.range' a n).foldl (fun pos_map j => Function.update pos_map j (g j)) pos_map =
      fun j => if a ≤ j ∧ j < a + n then g j else pos_map j := by
  induction n generalizing a pos_map with
  | zero =>
    funext j
    rw [if_neg (by omega)]
    rfl
  | succ n ih =>
    rw [List.range'_succ, List.foldl_cons, ih]
    funext j
    by_cases hj : j = a
    · rw [hj, if_neg (by omega), if_pos (by omega), Function.update_self]
    · rw [Function.update_of_ne hj]
      by_cases hin : a + 1 ≤ j ∧ j < a + 1 + n
      · rw [if_pos hin, if_pos (by omega)]
      · rw [if_neg hin, if_neg (by omega)]

theorem foldl_placeTurn (i bucket_start : Nat) (bs : List (Block L.bytes)) (tree : List (List (Block L.bytes)))
    (nFailed count : Nat) (pre : Option Nat) :
    ∃ count' pre', bs.foldl (placeTurn (L.level - i) bucket_start) ⟨tree, nFailed, count, pre⟩ =
      { OblivSK := putAll tree ((pack (prefixAt i) L.sizeBucket pre count bs).map fun p => (bucket_start + p.1, p.2))
        nFailed := nFailed + (skipped (prefixAt i) L.sizeBucket pre count bs).length
        count := count'
        preIndex := pre' } := by
  induction bs generalizing tree nFailed count pre with
  | nil => exact ⟨count, pre, rfl⟩
  | cons b bs ih =>
    have hturn : placeTurn (L.level - i) bucket_start ⟨tree, nFailed, count, pre⟩ b =
        if pre = some (prefixAt i b) then
          if L.sizeBucket ≤ count + 1 then ⟨tree, nFailed + 1, count + 1, pre⟩
          else ⟨put tree (bucket_start + prefixAt i b, count + 1, b), nFailed, count + 1, some (prefixAt i b)⟩
        else ⟨put tree (bucket_start + prefixAt i b, 0, b), nFailed, 0, some (prefixAt i b)⟩ := rfl
    rw [List.foldl_cons, hturn]
    unfold pack skipped
    split_ifs with h1 h2
    · obtain ⟨count', pre', h⟩ := ih tree (nFailed + 1) (count + 1) pre
      refine ⟨count', pre', h.trans ?_⟩
      rw [List.length_cons, Nat.add_assoc, Nat.add_comm 1]
    · obtain ⟨count', pre', h⟩ := ih (put tree (bucket_start + prefixAt i b, count + 1, b)) nFailed (count + 1) pre
      rw [← h1]
      exact ⟨count', pre', h⟩
    · exact ih (put tree (bucket_start + prefixAt i b, 0, b)) nFailed 0 (some (prefixAt i b))

theorem fillLevel_eq (m : Memory L) (pSource : Nat → Byte) (rand : Nat → Int) (pos_map : Nat → Bid)
    (tree : List (List (Block L.bytes))) (nFailed i : Nat) :
    fillLevel m pSource rand ⟨pos_map, tree, nFailed, sliceStart L.nBlock i, 2 ^ (i + 1) - 1⟩ i =
      { pos_map := fun j =>
          if sliceStart L.nBlock i ≤ j ∧ j < L.nBlock / 2 ^ i * 2 ^ i then drawLeaf L (rand j) else pos_map j
        OblivSK := putAll tree (if L.nBlock.testBit i then placesAt m pSource rand i else [])
        nFailed := nFailed + (if L.nBlock.testBit i then skippedAt m pSource rand i else []).length
        flag_start := L.nBlock / 2 ^ i * 2 ^ i
        bucket_start := 2 ^ i - 1 } := by
  have hstart : 2 ^ (i + 1) - 1 - 2 ^ i = 2 ^ i - 1 := by
    rw [pow_succ]
    omega
  have hand : L.nBlock &&& 2 ^ i = 0 ↔ L.nBlock.testBit i = false := by
    rw [Nat.and_two_pow]
    cases L.nBlock.testBit i <;> simp
  unfold fillLevel
  rw [Nat.one_shiftLeft]
  dsimp only
  rw [hstart, sliceStart_step]
  cases hbit : L.nBlock.testBit i with
  | false =>
    rw [if_pos (hand.mpr hbit), if_neg Bool.false_ne_true, if_neg Bool.false_ne_true, if_neg Bool.false_ne_true,
      Nat.add_zero]
    congr 1
    funext j
    rw [if_neg (by omega)]
  | true =>
    rw [if_neg (by rw [hand, hbit]; decide), if_pos rfl, if_pos rfl, if_pos rfl, foldl_update]
    have hslice : ((List.range' (sliceStart L.nBlock i) (2 ^ i)).map fun j => skBlock m pSource j
        (if sliceStart L.nBlock i ≤ j ∧ j < sliceStart L.nBlock i + 2 ^ i then drawLeaf L (rand j) else pos_map j)) =
          slice m pSource rand i := by
      apply List.map_congr_left
      intro j hj
      rw [List.mem_range'_1] at hj
      rw [if_pos hj]
    rw [hslice]
    obtain ⟨count', pre', h⟩ := foldl_placeTurn i (2 ^ i - 1) (sortedSlice m pSource rand i) tree nFailed L.sizeBucket none
    unfold sortedSlice at h
    rw [h]
    rfl

theorem foldl_fillLevel (m : Memory L) (pSource : Nat → Byte) (rand : Nat → Int) (n : Nat) (pos_map : Nat → Bid)
    (tree : List (List (Block L.bytes))) (nFailed : Nat) :
    (List.range n).reverse.foldl (fillLevel m pSource rand)
        ⟨pos_map, tree, nFailed, L.nBlock / 2 ^ n * 2 ^ n, 2 ^ n - 1⟩ =
      { pos_map := fun j => if L.nBlock / 2 ^ n * 2 ^ n ≤ j ∧ j < L.nBlock then drawLeaf L (rand j) else pos_map j
        OblivSK := putAll tree (places m pSource rand n)
        nFailed := nFailed + (allSkipped m pSource rand n).length
        flag_start := L.nBlock
        bucket_start := 0 } := by
  induction n generalizing pos_map tree nFailed with
  | zero =>
    have hmap : (fun j => if L.nBlock / 2 ^ 0 * 2 ^ 0 ≤ j ∧ j < L.nBlock then drawLeaf L (rand j) else pos_map j) =
        pos_map := by
      funext j
      rw [pow_zero, Nat.div_one, Nat.mul_one, if_neg (by omega)]
    rw [hmap, pow_zero, Nat.div_one, Nat.mul_one]
    rfl
  | succ n ih =>
    have hle : sliceStart L.nBlock n ≤ L.nBlock / 2 ^ n * 2 ^ n := by
      rw [sliceStart_step]
      exact Nat.le_add_right _ _
    have hle' : L.nBlock / 2 ^ n * 2 ^ n ≤ L.nBlock := Nat.div_mul_le_self _ _
    rw [List.range_succ, List.reverse_append, List.reverse_singleton, List.singleton_append, List.foldl_cons,
      ← sliceStart, fillLevel_eq, ih, places, places, allSkipped, allSkipped, overSlices_succ, overSlices_succ,
      putAll_append, List.length_append, Nat.add_assoc]
    congr 1
    funext j
    by_cases h1 : L.nBlock / 2 ^ n * 2 ^ n ≤ j ∧ j < L.nBlock
    · rw [if_pos h1, if_pos (by omega)]
    · rw [if_neg h1]
      by_cases h2 : sliceStart L.nBlock n ≤ j ∧ j < L.nBlock / 2 ^ n * 2 ^ n
      · rw [if_pos h2, if_pos (by omega)]
      · rw [if_neg h2, if_neg (by omega)]

end FOSketch.Oram
