import FOSketch.Oram.Init

/-!
# Buckets on a path

Three places of the code compute the bucket of a leaf at level `i`: the running `delta` of `readPath` and `pushPath`, the
`bucket_start` that `Init_OCU` counts down from the leaves, and the shifts that the eviction compares. `paths_spec` says
that they agree, and that reading and writing a path are inverse to each other.
-/

namespace FOSketch.Oram

open Slots

variable {L : Layout}

/-! ## The bucket in `Init_OCU` -/

/-- The loop of `Init_OCU` before its turn for level `i`. -/
def fillingAt (m : Memory L) (pSource : Nat → Byte) (rand : Nat → Int) (i : Nat) : Filling L :=
  ((List.range (L.level + 1)).reverse.take (L.level - i)).foldl (fillLevel m pSource rand)
    ⟨m.pos_map, emptyTree m, 0, 0, L.nBucket⟩

def initStart (m : Memory L) (pSource : Nat → Byte) (rand : Nat → Int) (i : Nat) : Nat :=
  (fillingAt m pSource rand i).bucket_start - 1 <<< i

theorem fillLevel_bucket_start (m : Memory L) (pSource : Nat → Byte) (rand : Nat → Int) (f : Filling L) (i : Nat) :
    (fillLevel m pSource rand f i).bucket_start = f.bucket_start - 1 <<< i := by
  unfold fillLevel
  dsimp only
  split_ifs
  · rfl
  · rfl

theorem foldl_bucket_start (m : Memory L) (pSource : Nat → Byte) (rand : Nat → Int) (f : Filling L) {n level : Nat}
    (hf : f.bucket_start = 2 ^ (level + 1) - 1) (hn : n ≤ level) :
    (((List.range (level + 1)).reverse.take n).foldl (fillLevel m pSource rand) f).bucket_start =
      2 ^ (level - n + 1) - 1 := by
  induction n with
  | zero => exact hf
  | succ n ih =>
    have hlen : n < (List.range (level + 1)).reverse.length := by
      rw [List.length_reverse, List.length_range]
      omega
    have hlevel : (List.range (level + 1)).reverse[n] = level - n := by
      rw [List.getElem_reverse, List.getElem_range, List.length_range]
      omega
    have hpow : 2 ^ (level - n + 1) = 2 * 2 ^ (level - n) := pow_succ' 2 _
    have hn' : level - (n + 1) + 1 = level - n := by omega
    rw [List.take_succ_eq_append_getElem hlen, List.foldl_append, List.foldl_cons, List.foldl_nil,
      fillLevel_bucket_start, ih (by omega), hlevel, Nat.one_shiftLeft, hn']
    omega

theorem initStart_eq (m : Memory L) (pSource : Nat → Byte) (rand : Nat → Int) {i : Nat} (hi : i ≤ L.level) :
    initStart m pSource rand i = 2 ^ i - 1 := by
  have hlevel : L.level - (L.level - i) + 1 = i + 1 := by omega
  have hpow : 2 ^ (i + 1) = 2 * 2 ^ i := pow_succ' 2 i
  unfold initStart fillingAt
  rw [foldl_bucket_start m pSource rand _ rfl (Nat.sub_le _ _), hlevel, Nat.one_shiftLeft]
  omega

/-- The turn for a block writes to no other bucket. -/
theorem placeTurn_frame (shift bucket_start : Nat) (t : Placing L) (b : Block L.bytes) {k : Nat}
    (hk : k ≠ bucket_start + b.pos.val >>> shift) :
    (placeTurn shift bucket_start t b).OblivSK[k]? = t.OblivSK[k]? := by
  unfold placeTurn
  dsimp only
  split_ifs
  · rfl
  · exact List.getElem?_modify_ne _ _ hk.symm
  · exact List.getElem?_modify_ne _ _ hk.symm

/-! ## Paths -/

/-- The bucket of `leaf` at level `i` in the order of the heap. -/
def bucketAt (level leaf i : Nat) : Nat := 2 ^ i - 1 + leaf >>> (level - i)

theorem node_sub_one (level leaf i : Nat) : node level leaf i - 1 = bucketAt level leaf i := by
  have hpos : 1 ≤ 2 ^ i := Nat.one_le_two_pow
  unfold node bucketAt
  rw [Nat.shiftRight_eq_div_pow, Nat.sub_add_comm hpos]

theorem getElem?_pathBuckets {level leaf : Nat} (h : leaf < 2 ^ level) {i : Nat} (hi : i ≤ level) :
    (pathBuckets level leaf)[i]? = some (bucketAt level leaf i) := by
  rw [pathBuckets_eq h, getElem?_pathTo hi, node_sub_one]

theorem pathBuckets_lt {leaf : Nat} (h : leaf < L.nLeaf) : ∀ k ∈ pathBuckets L.level leaf, k < L.nBucket := by
  intro k hk
  rw [pathBuckets_eq h] at hk
  exact pathTo_lt h hk

/-- Two paths share their bucket at level `i` when the leaves agree above it. -/
theorem sameBucket_iff {level leaf leaf' : Nat} (h : leaf < 2 ^ level) (h' : leaf' < 2 ^ level) {i : Nat}
    (hi : i ≤ level) :
    (pathBuckets level leaf)[i]? = (pathBuckets level leaf')[i]? ↔ leaf >>> (level - i) = leaf' >>> (level - i) := by
  rw [getElem?_pathBuckets h hi, getElem?_pathBuckets h' hi, Option.some.injEq]
  exact Nat.add_right_inj

section Path
variable {s : State L} (htree : s.OblivSK.length = L.nBucket) {leaf : Nat} (hleaf : leaf < L.nLeaf)
include htree hleaf

theorem pathBuckets_lt_length : ∀ k ∈ pathBuckets L.level leaf, k < s.OblivSK.length := by
  rw [htree]
  exact pathBuckets_lt hleaf

theorem readPath_pushPath {Path : List (List (Block L.bytes))} (hPath : Path.length = L.level + 1) :
    readPath (pushPath s Path leaf) leaf = Path := by
  have hnodup : (pathBuckets L.level leaf).Nodup := pathBuckets_eq hleaf ▸ nodup_pathTo hleaf
  have hlen : Path.length = (pathBuckets L.level leaf).length := by
    rw [pathBuckets_eq hleaf, length_pathTo, hPath]
  exact readAt_writeAt hnodup (pathBuckets_lt_length htree hleaf) hlen

theorem pushPath_readPath : pushPath s (readPath s leaf) leaf = s := by
  unfold pushPath readPath
  rw [writeAt_readAt (pathBuckets_lt_length htree hleaf)]

end Path

theorem pushPath_frame (s : State L) (Path : List (List (Block L.bytes))) {leaf k : Nat}
    (hk : k ∉ pathBuckets L.level leaf) : (pushPath s Path leaf).OblivSK[k]? = s.OblivSK[k]? :=
  getElem?_writeAt_of_notMem hk _ _

/-- **Paths.** Step `i` of `readPath` and `pushPath` uses the bucket that `Init_OCU` fills at level `i` for a block with
that leaf, the two are inverse to each other and touch the path only, and two paths share the bucket of level `i` exactly
if the eviction test says so. -/
theorem paths_spec {s : State L} (htree : s.OblivSK.length = L.nBucket) {leaf : Nat} (hleaf : leaf < L.nLeaf) :
    (pathBuckets L.level leaf).length = L.level + 1 ∧
    (∀ i ≤ L.level, (pathBuckets L.level leaf)[i]? = some (bucketAt L.level leaf i) ∧
      bucketAt L.level leaf i < L.nBucket ∧
      ∀ (m : Memory L) pSource rand, initStart m pSource rand i + leaf >>> (L.level - i) = bucketAt L.level leaf i ∧
        ∀ (t : Placing L) (b : Block L.bytes), b.pos.val = leaf → ∀ k ≠ bucketAt L.level leaf i,
          (placeTurn (L.level - i) (initStart m pSource rand i) t b).OblivSK[k]? = t.OblivSK[k]?) ∧
    (∀ Path : List (List (Block L.bytes)), Path.length = L.level + 1 → readPath (pushPath s Path leaf) leaf = Path) ∧
    pushPath s (readPath s leaf) leaf = s ∧
    (∀ Path, ∀ k ∉ pathBuckets L.level leaf, (pushPath s Path leaf).OblivSK[k]? = s.OblivSK[k]?) ∧
    ∀ leaf' < L.nLeaf, ∀ i ≤ L.level,
      ((pathBuckets L.level leaf')[i]? = (pathBuckets L.level leaf)[i]? ↔
        leaf' >>> (L.level - i) = leaf >>> (L.level - i)) ∧
      ∀ pos_map : Nat → Bid, ∀ b : Block L.bytes, (pos_map b.blockID.val).val = leaf' →
        (onPath L.level pos_map leaf i b = true ↔
          (pathBuckets L.level leaf')[i]? = (pathBuckets L.level leaf)[i]?) := by
  refine ⟨?_, fun i hi => ⟨getElem?_pathBuckets hleaf hi, ?_, fun m pSource rand => ⟨?_, ?_⟩⟩,
    fun Path => readPath_pushPath htree hleaf, pushPath_readPath htree hleaf, fun Path k => pushPath_frame s Path,
    fun leaf' hleaf' i hi => ⟨sameBucket_iff hleaf' hleaf hi, ?_⟩⟩
  · rw [pathBuckets_eq hleaf, length_pathTo]
  · exact pathBuckets_lt hleaf _ (List.mem_of_getElem? (getElem?_pathBuckets hleaf hi))
  · rw [initStart_eq m pSource rand hi, bucketAt]
  · rintro t b rfl k hk
    rw [bucketAt, ← initStart_eq m pSource rand hi] at hk
    exact placeTurn_frame _ _ t b hk
  · rintro pos_map b rfl
    rw [sameBucket_iff hleaf' hleaf hi, onPath, beq_iff_eq]

/-- A tree of two leaves with one block in each bucket. -/
def threeBuckets : State (small 1 3) where
  stash := []
  length_st := 0
  OblivSK := [[flat 1 3 2 1 7], [flat 1 3 0 0 8], [flat 1 3 1 1 9]]
  pos_map := fun _ => 0

theorem paths_spec_threeBuckets :
    readPath (pushPath threeBuckets [[flat 1 3 0 0 8], []] 1) 1 = [[flat 1 3 0 0 8], []] ∧
      pushPath threeBuckets (readPath threeBuckets 1) 1 = threeBuckets :=
  have h := paths_spec (s := threeBuckets) rfl (show 1 < (small 1 3).nLeaf by decide)
  ⟨h.2.2.1 [[flat 1 3 0 0 8], []] rfl, h.2.2.2.1⟩

end FOSketch.Oram
