import FOSketch.Oram.Init

/-!
# The sketch after `Init_OCU`

Every block gets a place in the tree or is skipped (`places_append_skipped`), and the places are all different
(`places_distinct`). So the tree holds the placed blocks, each at its level, in the first places of its bucket, and a
bucket that skips a block is full (`Init_OCU_initialised`). No block is lost exactly if no bucket overflows
(`Init_OCU_stored_iff`).
-/

namespace FOSketch.Oram

open Slots Network

variable {L : Layout}

theorem layoutOf_level {sketchType : SketchType} {size_sk sizeBlock sizeBucket : Nat} {needComStash : Bool}
    {hsize : ∃ e, 4 ≤ e ∧ e ≤ 15 ∧ sizeBlock = 2 ^ e}
    (h : layoutOf sketchType size_sk sizeBlock sizeBucket needComStash hsize = some L) :
    L.level = Nat.log 2 L.nBlock ∧ L.sizeBucket = sizeBucket := by
  unfold layoutOf at h
  dsimp only at h
  split at h
  · rw [← Option.some.inj h]
    exact ⟨rfl, rfl⟩
  · exact absurd h (by simp)

theorem nBlock_lt (hlevel : L.level = Nat.log 2 L.nBlock) : L.nBlock < 2 ^ (L.level + 1) := by
  rw [hlevel]
  exact Nat.lt_pow_succ_log_self (by decide) _

theorem nBlock_lt_dummy (hlevel : L.level = Nat.log 2 L.nBlock) : L.nBlock < 65536 :=
  (nBlock_lt hlevel).trans_le (Nat.pow_le_pow_right (by decide) L.level_lt : 2 ^ (L.level + 1) ≤ 2 ^ 16)

/-! ## Placed and skipped blocks -/

section Places
variable (m : Memory L) (pSource : Nat → Byte) (rand : Nat → Int)

def made (j : Nat) : Block L.bytes := skBlock m pSource j (drawLeaf L (rand j))

theorem length_slice (i : Nat) : (slice m pSource rand i).length = 2 ^ i := by
  unfold slice
  rw [List.length_map, List.length_range']

theorem sortedSlice_spec {i : Nat} (hi : i ≤ 30) : (sortedSlice m pSource rand i).Perm (slice m pSource rand i) ∧
    (sortedSlice m pSource rand i).Pairwise fun x y => prefixAt i x ≤ prefixAt i y := by
  have hlen : (slice m pSource rand i).length ≤ 2 ^ 30 := by
    rw [length_slice]
    exact Nat.pow_le_pow_right (by decide) hi
  have hg : ∀ x y : Block L.bytes, greater_FOS x y = true ↔ y.pos < x.pos := fun x y => decide_eq_true_iff
  obtain ⟨hperm, hsorted⟩ := (BitonicSorter.bitonic_spec hg hlen).1
  rw [length_slice] at hperm hsorted
  refine ⟨hperm, hsorted.imp fun {x y} h => ?_⟩
  unfold prefixAt
  rw [Nat.shiftRight_eq_div_pow, Nat.shiftRight_eq_div_pow]
  exact Nat.div_le_div_right h

theorem placesAt_append_skipped {i : Nat} (hi : i ≤ 30) :
    (((placesAt m pSource rand i).map fun p => p.2.2) ++ skippedAt m pSource rand i).Perm (slice m pSource rand i) := by
  unfold placesAt skippedAt
  rw [List.map_map]
  exact (pack_append_skipped none L.sizeBucket _).trans (sortedSlice_spec m pSource rand hi).1

/-- **Every block is placed or skipped.** -/
theorem places_append_skipped {n : Nat} (hn : n ≤ 31) :
    (((places m pSource rand n).map fun p => p.2.2) ++ allSkipped m pSource rand n).Perm
      ((List.range' (L.nBlock / 2 ^ n * 2 ^ n) (L.nBlock - L.nBlock / 2 ^ n * 2 ^ n)).map (made m pSource rand)) := by
  induction n with
  | zero =>
    rw [pow_zero, Nat.div_one, Nat.mul_one, Nat.sub_self]
    exact List.Perm.refl _
  | succ n ih =>
    have ih := ih (by omega)
    have hstep := sliceStart_step L.nBlock n
    have hle : L.nBlock / 2 ^ n * 2 ^ n ≤ L.nBlock := Nat.div_mul_le_self _ _
    rw [places, allSkipped, overSlices_succ, overSlices_succ, ← places, ← allSkipped, ← sliceStart]
    cases hbit : L.nBlock.testBit n with
    | false =>
      rw [if_neg Bool.false_ne_true, if_neg Bool.false_ne_true, List.nil_append, List.nil_append]
      rw [hbit, if_neg Bool.false_ne_true, Nat.add_zero] at hstep
      rw [hstep] at ih
      exact ih
    | true =>
      rw [hbit, if_pos rfl] at hstep
      have hrange : List.range' (sliceStart L.nBlock n) (L.nBlock - sliceStart L.nBlock n) =
          List.range' (sliceStart L.nBlock n) (2 ^ n) ++
            List.range' (L.nBlock / 2 ^ n * 2 ^ n) (L.nBlock - L.nBlock / 2 ^ n * 2 ^ n) := by
        have happend := @List.range'_append_1 (sliceStart L.nBlock n) (2 ^ n) (L.nBlock - L.nBlock / 2 ^ n * 2 ^ n)
        have hle := hle
        have hpos := Nat.two_pow_pos n
        rw [hstep] at hle happend ⊢
        rw [happend]
        congr 1
        omega
      rw [if_pos rfl, if_pos rfl, hrange, List.map_append, List.map_append]
      refine List.Perm.trans ?_ ((placesAt_append_skipped m pSource rand (by omega)).append ih)
      rw [List.append_assoc, List.append_assoc]
      apply List.Perm.append_left
      rw [← List.append_assoc, ← List.append_assoc]
      exact List.Perm.append_right _ List.perm_append_comm

theorem mem_placesAt {i : Nat} (hi : i ≤ L.level) (hm : 0 < L.sizeBucket) {p : Put (Block L.bytes)}
    (h : p ∈ placesAt m pSource rand i) :
    p.2.2 ∈ slice m pSource rand i ∧ p.1 = 2 ^ i - 1 + prefixAt i p.2.2 ∧ p.1 < 2 ^ (i + 1) - 1 ∧ p.2.1 < L.sizeBucket := by
  obtain ⟨q, hq, rfl⟩ := List.mem_map.mp h
  obtain ⟨hmem, hkey, hlt⟩ := mem_pack hm hq
  have hslice := (sortedSlice_spec m pSource rand (hi.trans (by have := L.level_lt; omega))).1.mem_iff.mp hmem
  obtain ⟨j, -, hj⟩ := List.mem_map.mp hslice
  have hpos : q.2.2.pos.val < 2 ^ L.level := by
    rw [← hj]
    exact drawLeaf_lt L (rand j)
  have hpre : prefixAt i q.2.2 < 2 ^ i := by
    unfold prefixAt
    rw [Nat.shiftRight_eq_div_pow]
    exact div_pow_lt hi hpos
  refine ⟨hslice, ?_, ?_, hlt⟩
  · dsimp only
    rw [hkey]
  · dsimp only
    rw [hkey, pow_succ]
    omega

/-- **No place is used twice.** -/
theorem places_distinct (hm : 0 < L.sizeBucket) {n : Nat} (hn : n ≤ L.level + 1) :
    (places m pSource rand n).Pairwise fun p p' => p.1 ≠ p'.1 ∨ p.2.1 ≠ p'.2.1 := by
  induction n with
  | zero => exact List.Pairwise.nil
  | succ n ih =>
    rw [places, overSlices_succ, ← places]
    refine List.pairwise_append.mpr ⟨?_, ih (by omega), ?_⟩
    · split_ifs
      · have hsorted := (sortedSlice_spec m pSource rand (show n ≤ 30 by have := L.level_lt; omega)).2
        exact List.Pairwise.map _ (fun p p' h => h.imp (fun h he => h (by dsimp only at he; omega)) id)
          (pack_distinct hsorted fun k hk => absurd hk (by simp))
      · exact List.Pairwise.nil
    · intro p hp p' hp'
      have hp : p ∈ placesAt m pSource rand n := by
        split_ifs at hp
        · exact hp
        · exact absurd hp (by simp)
      obtain ⟨-, hkey, -⟩ := mem_placesAt m pSource rand (by omega) hm hp
      obtain ⟨i, hi, -, hp'⟩ := mem_overSlices.mp hp'
      obtain ⟨-, -, hlt, -⟩ := mem_placesAt m pSource rand (by omega) hm hp'
      have hpow : 2 ^ (i + 1) ≤ 2 ^ n := Nat.pow_le_pow_right (by decide) hi
      exact Or.inl (by omega)

/-- The places below a used one are used. -/
theorem placesAt_below {i : Nat} {p : Put (Block L.bytes)} (h : p ∈ placesAt m pSource rand i) (hp : p.2.1 < L.sizeBucket)
    {j : Nat} (hj : j < p.2.1) : ∃ p' ∈ placesAt m pSource rand i, p'.1 = p.1 ∧ p'.2.1 = j := by
  obtain ⟨q, hq, rfl⟩ := List.mem_map.mp h
  obtain ⟨q', hq', hkey, hplace⟩ := taken_none (pack_below hq hp hj)
  exact ⟨_, List.mem_map.mpr ⟨q', hq', rfl⟩, by rw [hkey], hplace⟩

/-- All places of a bucket that skips a block are used. -/
theorem placesAt_full {i : Nat} {b : Block L.bytes} (h : b ∈ skippedAt m pSource rand i) {j : Nat} (hj : j < L.sizeBucket) :
    ∃ p ∈ placesAt m pSource rand i, p.1 = 2 ^ i - 1 + prefixAt i b ∧ p.2.1 = j := by
  obtain ⟨q, hq, hkey, hplace⟩ := taken_none (pack_full h hj)
  exact ⟨_, List.mem_map.mpr ⟨q, hq, rfl⟩, by rw [hkey], hplace⟩

end Places

/-! ## The tree -/

section Tree
variable (m : Memory L)

@[simp] theorem length_emptyTree : (emptyTree m).length = L.nBucket := by
  unfold emptyTree
  rw [List.length_map, List.length_range]

theorem mem_emptyTree {bucket : List (Block L.bytes)} (h : bucket ∈ emptyTree m) :
    bucket.length = L.sizeBucket ∧ ∀ c ∈ bucket, c.real = false := by
  obtain ⟨k, -, rfl⟩ := List.mem_map.mp h
  refine ⟨by rw [List.length_map, List.length_range], fun c hc => ?_⟩
  obtain ⟨j, -, rfl⟩ := List.mem_map.mp hc
  exact Block.real_erase _

theorem emptyTree_at {k j : Nat} (hk : k < L.nBucket) (hj : j < L.sizeBucket) :
    ∃ y, At (emptyTree m) k j y ∧ y.real = false := by
  have hlt : k < (emptyTree m).length := by rwa [length_emptyTree]
  obtain ⟨hlen, hdummy⟩ := mem_emptyTree m (List.getElem_mem hlt)
  exact ⟨_, ⟨_, List.getElem?_eq_getElem hlt, List.getElem?_eq_getElem (by rwa [hlen])⟩, hdummy _ (List.getElem_mem _)⟩

theorem real_of_at_putAll {ps : List (Put (Block L.bytes))} {k j : Nat} {c : Block L.bytes}
    (h : At (putAll (emptyTree m) ps) k j c) (hc : c.real = true) : (k, j, c) ∈ ps := by
  apply h.of_putAll.resolve_left
  rintro ⟨bucket, hk, hj⟩
  rw [(mem_emptyTree m (List.mem_of_getElem? hk)).2 c (List.mem_of_getElem? hj)] at hc
  exact absurd hc Bool.false_ne_true

variable (pSource : Nat → Byte) (rand : Nat → Int)

/-- The tree with the blocks in their places. -/
def filledTree : List (List (Block L.bytes)) := putAll (emptyTree m) (places m pSource rand (L.level + 1))

/-- What `Init_OCU` returns, in terms of the places. -/
theorem Init_OCU_eq (hlevel : L.level = Nat.log 2 L.nBlock) : Init_OCU L m pSource rand =
    ({ stash := (List.range MAX_STASH_NUM).map fun i => (m.stash i).erase
       length_st := DEFAULT_STASH_LENGTH
       OblivSK := filledTree m pSource rand
       pos_map := fun j => if j < L.nBlock then drawLeaf L (rand j) else m.pos_map j },
      (allSkipped m pSource rand (L.level + 1)).length) := by
  have hfold := foldl_fillLevel m pSource rand (L.level + 1) m.pos_map (emptyTree m) 0
  rw [Nat.div_eq_of_lt (nBlock_lt hlevel), Nat.zero_mul] at hfold
  have hbuckets : L.nBucket = 2 ^ (L.level + 1) - 1 := rfl
  unfold Init_OCU
  rw [hbuckets, hfold]
  simp [filledTree]

theorem made_id (hlevel : L.level = Nat.log 2 L.nBlock) {j : Nat} (hj : j < L.nBlock) :
    (made m pSource rand j).blockID.val = j :=
  Nat.mod_eq_of_lt (hj.trans (nBlock_lt_dummy hlevel))

theorem real_made (hlevel : L.level = Nat.log 2 L.nBlock) {j : Nat} (hj : j < L.nBlock) :
    (made m pSource rand j).real = true := by
  apply Block.real_iff.mpr
  intro he
  have hid := made_id m pSource rand hlevel hj
  have hlt := nBlock_lt_dummy hlevel
  rw [he] at hid
  have hval : DUMMY_FLAG.val = 65535 := rfl
  omega

theorem placed_or_skipped (hlevel : L.level = Nat.log 2 L.nBlock) :
    (((places m pSource rand (L.level + 1)).map fun p => p.2.2) ++ allSkipped m pSource rand (L.level + 1)).Perm
      ((List.range L.nBlock).map (made m pSource rand)) := by
  have h := places_append_skipped m pSource rand (show L.level + 1 ≤ 31 by have := L.level_lt; omega)
  rw [Nat.div_eq_of_lt (nBlock_lt hlevel), Nat.zero_mul, Nat.sub_zero, ← List.range_eq_range'] at h
  exact h

theorem mem_places_made (hlevel : L.level = Nat.log 2 L.nBlock) {p : Put (Block L.bytes)}
    (h : p ∈ places m pSource rand (L.level + 1)) : ∃ j < L.nBlock, p.2.2 = made m pSource rand j := by
  have hmem := (placed_or_skipped m pSource rand hlevel).mem_iff.mp
    (List.mem_append_left _ (List.mem_map.mpr ⟨p, h, rfl⟩))
  obtain ⟨j, hj, he⟩ := List.mem_map.mp hmem
  exact ⟨j, List.mem_range.mp hj, he.symm⟩

/-- **The tree holds the placed blocks**, each in its place. -/
theorem occupants_tree (hlevel : L.level = Nat.log 2 L.nBlock) (hm : 0 < L.sizeBucket) :
    (occupants Block.real (filledTree m pSource rand).flatten).Perm
        ((places m pSource rand (L.level + 1)).map fun p => p.2.2) ∧
      ∀ p ∈ places m pSource rand (L.level + 1), At (filledTree m pSource rand) p.1 p.2.1 p.2.2 := by
  have hdummies : ∀ c ∈ (emptyTree m).flatten, c.real = false := by
    intro c hc
    obtain ⟨bucket, hbucket, hc⟩ := List.mem_flatten.mp hc
    exact (mem_emptyTree m hbucket).2 c hc
  have hreal : ∀ p ∈ places m pSource rand (L.level + 1), p.2.2.real = true := by
    intro p hp
    obtain ⟨j, hj, he⟩ := mem_places_made m pSource rand hlevel hp
    rw [he]
    exact real_made m pSource rand hlevel hj
  have hfree : ∀ p ∈ places m pSource rand (L.level + 1), ∃ y, At (emptyTree m) p.1 p.2.1 y ∧ y.real = false := by
    intro p hp
    obtain ⟨i, hi, -, hp⟩ := mem_overSlices.mp hp
    obtain ⟨-, -, hlt, hplace⟩ := mem_placesAt m pSource rand (by omega) hm hp
    have hpow : 2 ^ (i + 1) ≤ 2 ^ (L.level + 1) := Nat.pow_le_pow_right (by decide) hi
    exact emptyTree_at m (show p.1 < 2 ^ (L.level + 1) - 1 by omega) hplace
  obtain ⟨hperm, hat⟩ := occupants_putAll hreal hfree (places_distinct m pSource rand hm le_rfl)
  rw [occupants_of_holes hdummies, List.append_nil] at hperm
  exact ⟨hperm, hat⟩

end Tree

/-! ## What the tree holds -/

/-- The payload is the slice of the source that belongs to the id. -/
def HoldsSource (pSource : Nat → Byte) (b : Block L.bytes) : Prop :=
  ∀ k : Fin L.bytes, L.payloadInd - 2 * sizeofBid ≤ k.val →
    b.data k = pSource (b.blockID.val * L.nRecord * L.elemSize + (k.val - (L.payloadInd - 2 * sizeofBid)))

/-- What `Init_OCU` leaves: a tree with at most one copy of every id, each on its path; in a bucket the real blocks come
first; a block that is not in the tree found its bucket full, and was counted. -/
structure Initialised (pSource : Nat → Byte) (s : State L) (nFailed : Nat) : Prop where
  not_dummy : ∀ b < L.nBlock, toBid b ≠ DUMMY_FLAG
  once : ∀ b < L.nBlock, (s.OblivSK.flatten.map fun c => c.blockID.val).count b ≤ 1
  stored : ∀ (k : Nat) (bucket : List (Block L.bytes)), s.OblivSK[k]? = some bucket → ∀ c ∈ bucket, c.real = true →
    ∃ b < L.nBlock, c.blockID.val = b ∧ (∃ i ≤ L.level, k = 2 ^ i - 1 + (s.pos_map b).val >>> (L.level - i)) ∧
      c.pos = s.pos_map b ∧ (s.pos_map b).val < L.nLeaf ∧ HoldsSource pSource c
  real_first : ∀ bucket ∈ s.OblivSK, bucket.Pairwise fun x y => y.real = true → x.real = true
  full : ∀ b < L.nBlock, (∀ c ∈ s.OblivSK.flatten, c.blockID.val ≠ b) →
    ∃ i, L.nBlock.testBit i = true ∧ sliceStart L.nBlock i ≤ b ∧ b < sliceStart L.nBlock i + 2 ^ i ∧
      ∃ bucket, s.OblivSK[2 ^ i - 1 + (s.pos_map b).val >>> (L.level - i)]? = some bucket ∧
        bucket.length = L.sizeBucket ∧ ∀ c ∈ bucket, c.real = true
  stored_add_failed : (occupants Block.real s.OblivSK.flatten).length + nFailed = L.nBlock

section Result
variable (m : Memory L) (pSource : Nat → Byte) (rand : Nat → Int)

theorem made_holdsSource (hlevel : L.level = Nat.log 2 L.nBlock) {j : Nat} (hj : j < L.nBlock) :
    HoldsSource pSource (made m pSource rand j) := by
  intro k hk
  rw [made_id m pSource rand hlevel hj]
  change (if k.val < L.payloadInd - 2 * sizeofBid then _ else _) = _
  rw [if_neg (by omega)]

theorem placed_or_skipped_ids (hlevel : L.level = Nat.log 2 L.nBlock) :
    (((places m pSource rand (L.level + 1)).map fun p => p.2.2.blockID.val) ++
      (allSkipped m pSource rand (L.level + 1)).map fun c => c.blockID.val).Perm (List.range L.nBlock) := by
  have h := (placed_or_skipped m pSource rand hlevel).map fun c => c.blockID.val
  rw [List.map_append, List.map_map, List.map_map] at h
  refine h.trans (List.Perm.of_eq ?_)
  conv_rhs => rw [← List.map_id (List.range L.nBlock)]
  exact List.map_congr_left fun j hj => made_id m pSource rand hlevel (List.mem_range.mp hj)

theorem mem_places_of_mem_tree {k : Nat} {bucket : List (Block L.bytes)}
    (hk : (filledTree m pSource rand)[k]? = some bucket) {c : Block L.bytes} (hc : c ∈ bucket) (hr : c.real = true) :
    ∃ p ∈ places m pSource rand (L.level + 1), p.1 = k ∧ p.2.2 = c := by
  obtain ⟨j, hj⟩ := List.mem_iff_getElem?.mp hc
  exact ⟨_, real_of_at_putAll m ⟨bucket, hk, hj⟩ hr, rfl, rfl⟩

theorem prefixAt_made (i j : Nat) :
    prefixAt i (made m pSource rand j) = (drawLeaf L (rand j)).val >>> (L.level - i) := rfl

theorem mem_slice_made (hlevel : L.level = Nat.log 2 L.nBlock) {i j : Nat} (hj : j < L.nBlock)
    (hi : L.nBlock.testBit i = true) (h : made m pSource rand j ∈ slice m pSource rand i) :
    sliceStart L.nBlock i ≤ j ∧ j < sliceStart L.nBlock i + 2 ^ i := by
  obtain ⟨j', hj', he⟩ := List.mem_map.mp h
  rw [List.mem_range'_1] at hj'
  have hstep := sliceStart_step L.nBlock i
  rw [hi, if_pos rfl] at hstep
  have hle : L.nBlock / 2 ^ i * 2 ^ i ≤ L.nBlock := Nat.div_mul_le_self _ _
  have hid := made_id m pSource rand hlevel (show j' < L.nBlock by omega)
  have heq : j' = j := by
    rw [← hid, ← made_id m pSource rand hlevel hj]
    exact congrArg (fun c : Block L.bytes => c.blockID.val) he
  rwa [heq] at hj'

theorem filledTree_shape : (filledTree m pSource rand).length = L.nBucket ∧
    ∀ bucket ∈ filledTree m pSource rand, bucket.length = L.sizeBucket := by
  constructor
  · exact (length_putAll _ _).trans (length_emptyTree m)
  · intro bucket hbucket
    obtain ⟨k, hk⟩ := List.mem_iff_getElem?.mp hbucket
    obtain ⟨old, hold, hlen⟩ := length_bucket_putAll hk
    rw [hlen]
    exact (mem_emptyTree m (List.mem_of_getElem? hold)).1

variable (hlevel : L.level = Nat.log 2 L.nBlock) (hm : 0 < L.sizeBucket)
include hlevel hm

theorem count_filledTree {b : Nat} (hb : b < L.nBlock) :
    ((filledTree m pSource rand).flatten.map fun c => c.blockID.val).count b =
      ((places m pSource rand (L.level + 1)).map fun p => p.2.2.blockID.val).count b := by
  have hlt := nBlock_lt_dummy hlevel
  have hperm := ((occupants_tree m pSource rand hlevel hm).1.map fun c => c.blockID.val).count_eq b
  rw [List.map_map] at hperm
  exact (count_occupants (by omega) _).trans hperm

/-- Every id is in the tree or was skipped, once. -/
theorem count_add_skipped {b : Nat} (hb : b < L.nBlock) :
    ((filledTree m pSource rand).flatten.map fun c => c.blockID.val).count b +
      ((allSkipped m pSource rand (L.level + 1)).map fun c => c.blockID.val).count b = 1 := by
  rw [count_filledTree m pSource rand hlevel hm hb, ← List.count_append,
    (placed_or_skipped_ids m pSource rand hlevel).count_eq, List.count_range, if_pos hb]

theorem filledTree_stored {k : Nat} {bucket : List (Block L.bytes)} (hk : (filledTree m pSource rand)[k]? = some bucket)
    {c : Block L.bytes} (hc : c ∈ bucket) (hr : c.real = true) :
    ∃ b < L.nBlock, c = made m pSource rand b ∧
      ∃ i ≤ L.level, L.nBlock.testBit i = true ∧ k = 2 ^ i - 1 + (drawLeaf L (rand b)).val >>> (L.level - i) := by
  obtain ⟨p, hp, rfl, rfl⟩ := mem_places_of_mem_tree m pSource rand hk hc hr
  obtain ⟨j, hj, he⟩ := mem_places_made m pSource rand hlevel hp
  obtain ⟨i, hi, hbit, hp⟩ := mem_overSlices.mp hp
  obtain ⟨-, hkey, -⟩ := mem_placesAt m pSource rand (by omega) hm hp
  rw [he, prefixAt_made] at hkey
  exact ⟨j, hj, he, i, by omega, hbit, hkey⟩

theorem filledTree_real_first {bucket : List (Block L.bytes)} (hbucket : bucket ∈ filledTree m pSource rand) :
    bucket.Pairwise fun x y => y.real = true → x.real = true := by
  obtain ⟨k, hk⟩ := List.mem_iff_getElem?.mp hbucket
  rw [List.pairwise_iff_getElem]
  intro j j' hj hj' hlt hr
  -- the block in the later place was put there, so one was put into the place before, too
  have hmem := real_of_at_putAll m ⟨bucket, hk, List.getElem?_eq_getElem hj'⟩ hr
  obtain ⟨i, hi, hbit, hmem⟩ := mem_overSlices.mp hmem
  obtain ⟨-, -, -, hplace⟩ := mem_placesAt m pSource rand (by omega) hm hmem
  obtain ⟨p, hp, rfl, rfl⟩ := placesAt_below m pSource rand hmem hplace hlt
  have hp : p ∈ places m pSource rand (L.level + 1) := mem_overSlices.mpr ⟨i, hi, hbit, hp⟩
  obtain ⟨bucket', hk', hat⟩ := (occupants_tree m pSource rand hlevel hm).2 p hp
  obtain ⟨b, hb, he⟩ := mem_places_made m pSource rand hlevel hp
  rw [hk, Option.some.injEq] at hk'
  rw [← hk', List.getElem?_eq_getElem hj, Option.some.injEq] at hat
  rw [hat, he]
  exact real_made m pSource rand hlevel hb

theorem filledTree_full {b : Nat} (hb : b < L.nBlock)
    (hout : ∀ c ∈ (filledTree m pSource rand).flatten, c.blockID.val ≠ b) :
    ∃ i, L.nBlock.testBit i = true ∧ sliceStart L.nBlock i ≤ b ∧ b < sliceStart L.nBlock i + 2 ^ i ∧
      ∃ bucket, (filledTree m pSource rand)[2 ^ i - 1 + (drawLeaf L (rand b)).val >>> (L.level - i)]? = some bucket ∧
        bucket.length = L.sizeBucket ∧ ∀ c ∈ bucket, c.real = true := by
  have hskip := count_add_skipped m pSource rand hlevel hm hb
  rw [count_id_eq_zero hout, Nat.zero_add] at hskip
  obtain ⟨c, hc, hid⟩ := exists_of_count_id (Nat.lt_of_lt_of_eq Nat.one_pos hskip.symm)
  obtain ⟨b', hb', rfl⟩ := List.mem_map.mp
    ((placed_or_skipped m pSource rand hlevel).mem_iff.mp (List.mem_append_right _ hc))
  rw [made_id m pSource rand hlevel (List.mem_range.mp hb')] at hid
  subst hid
  obtain ⟨i, hi, hbit, hc⟩ := mem_overSlices.mp hc
  have hslice := (placesAt_append_skipped m pSource rand (i := i) (by have := L.level_lt; omega)).mem_iff.mp
    (List.mem_append_right _ hc)
  obtain ⟨hstart, hend⟩ := mem_slice_made m pSource rand hlevel hb hbit hslice
  have hplaces : ∀ j < L.sizeBucket, ∃ c, c.real = true ∧
      At (filledTree m pSource rand) (2 ^ i - 1 + (drawLeaf L (rand b')).val >>> (L.level - i)) j c := by
    intro j hj
    obtain ⟨p, hp, hkey, rfl⟩ := placesAt_full m pSource rand hc hj
    have hp : p ∈ places m pSource rand (L.level + 1) := mem_overSlices.mpr ⟨i, hi, hbit, hp⟩
    obtain ⟨j, hj, he⟩ := mem_places_made m pSource rand hlevel hp
    have hat := (occupants_tree m pSource rand hlevel hm).2 p hp
    rw [hkey, prefixAt_made] at hat
    exact ⟨p.2.2, he ▸ real_made m pSource rand hlevel hj, hat⟩
  obtain ⟨-, -, bucket, hk, -⟩ := hplaces 0 hm
  have hlen := (filledTree_shape m pSource rand).2 bucket (List.mem_of_getElem? hk)
  refine ⟨i, hbit, hstart, hend, bucket, hk, hlen, fun c hc => ?_⟩
  obtain ⟨j, hj⟩ := List.mem_iff_getElem?.mp hc
  obtain ⟨c', hr, bucket', hk', hj'⟩ := hplaces j (by rw [← hlen]; exact (List.getElem?_eq_some_iff.mp hj).1)
  rw [hk, Option.some.injEq] at hk'
  rw [← hk', hj, Option.some.injEq] at hj'
  rw [hj']
  exact hr

theorem filledTree_add_failed : (occupants Block.real (filledTree m pSource rand).flatten).length +
    (allSkipped m pSource rand (L.level + 1)).length = L.nBlock := by
  have hlen := (placed_or_skipped m pSource rand hlevel).length_eq
  rw [List.length_append, List.length_map (made m pSource rand), List.length_range] at hlen
  rw [(occupants_tree m pSource rand hlevel hm).1.length_eq]
  exact hlen

omit hlevel hm in
theorem dummy_of_mem_stash (hlevel : L.level = Nat.log 2 L.nBlock) {c : Block L.bytes}
    (h : c ∈ (Init_OCU L m pSource rand).1.stash) : c.real = false := by
  rw [Init_OCU_eq m pSource rand hlevel] at h
  obtain ⟨i, -, rfl⟩ := List.mem_map.mp h
  exact Block.real_erase _

end Result

/-! ## When no block is lost -/

/-- Of no slice more than `sizeBucket` blocks belong to one bucket. -/
def NoOverflow (L : Layout) (rand : Nat → Int) : Prop :=
  ∀ i, L.nBlock.testBit i = true → ∀ k, ((List.range' (sliceStart L.nBlock i) (2 ^ i)).countP fun j =>
    (drawLeaf L (rand j)).val >>> (L.level - i) == k) ≤ L.sizeBucket

/-- Block `b` is in the stash or in a bucket on its path, with its slice of the source. -/
def Stored (pSource : Nat → Byte) (s : State L) (b : Nat) : Prop :=
  ∃ c, c.blockID.val = b ∧ HoldsSource pSource c ∧
    (c ∈ s.stash ∨ ∃ k ∈ pathTo L.level (s.pos_map b).val, ∃ bucket, s.OblivSK[k]? = some bucket ∧ c ∈ bucket)

section Overflow
variable (m : Memory L) (pSource : Nat → Byte) (rand : Nat → Int) (hlevel : L.level = Nat.log 2 L.nBlock)
  (hm : 0 < L.sizeBucket)
include hlevel hm

omit hlevel in
theorem skippedAt_eq_nil_iff {i : Nat} (hi : i ≤ L.level) : skippedAt m pSource rand i = [] ↔
    ∀ k, ((List.range' (sliceStart L.nBlock i) (2 ^ i)).countP fun j =>
      (drawLeaf L (rand j)).val >>> (L.level - i) == k) ≤ L.sizeBucket := by
  obtain ⟨hperm, hsorted⟩ := sortedSlice_spec m pSource rand (show i ≤ 30 by have := L.level_lt; omega)
  have hperm' : (_ ++ skippedAt m pSource rand i).Perm _ :=
    pack_append_skipped none L.sizeBucket (sortedSlice m pSource rand i)
  have hlen := hperm'.length_eq
  rw [List.length_append, List.length_map] at hlen
  have hgroup : ∀ k, groupSize (prefixAt i) k (sortedSlice m pSource rand i) =
      (List.range' (sliceStart L.nBlock i) (2 ^ i)).countP fun j =>
        (drawLeaf L (rand j)).val >>> (L.level - i) == k := by
    intro k
    unfold groupSize
    rw [hperm.countP_eq, slice, List.countP_map]
    rfl
  have hpack := length_pack_eq_iff hm L.sizeBucket hsorted
  simp only [hgroup] at hpack
  rw [← hpack, ← List.length_eq_zero_iff]
  omega

theorem allSkipped_eq_nil_iff : allSkipped m pSource rand (L.level + 1) = [] ↔ NoOverflow L rand := by
  constructor
  · intro h i hbit
    have hi : i ≤ L.level := by
      by_contra hgt
      have hpow : 2 ^ (L.level + 1) ≤ 2 ^ i := Nat.pow_le_pow_right (by decide) (by omega)
      rw [Nat.testBit_eq_false_of_lt ((nBlock_lt hlevel).trans_le hpow)] at hbit
      exact Bool.false_ne_true hbit
    refine (skippedAt_eq_nil_iff m pSource rand hm hi).mp (List.eq_nil_iff_forall_not_mem.mpr fun c hc => ?_)
    exact List.eq_nil_iff_forall_not_mem.mp h c (mem_overSlices.mpr ⟨i, by omega, hbit, hc⟩)
  · intro h
    refine List.eq_nil_iff_forall_not_mem.mpr fun c hc => ?_
    obtain ⟨i, hi, hbit, hc⟩ := mem_overSlices.mp hc
    rw [(skippedAt_eq_nil_iff m pSource rand hm (by omega)).mpr (h i hbit)] at hc
    exact absurd hc (by simp)

theorem count_of_noOverflow (h : NoOverflow L rand) {b : Nat} (hb : b < L.nBlock) :
    ((filledTree m pSource rand).flatten.map fun c => c.blockID.val).count b = 1 := by
  have hcount := count_add_skipped m pSource rand hlevel hm hb
  rw [(allSkipped_eq_nil_iff m pSource rand hlevel hm).mpr h] at hcount
  exact hcount

/-- Then the sketch is one that accesses keep well formed. -/
theorem Init_OCU_wellFormed (h : NoOverflow L rand) : WellFormed (Init_OCU L m pSource rand).1 := by
  have hdummy : ∀ c ∈ (Init_OCU L m pSource rand).1.stash, c.real = false := fun c =>
    dummy_of_mem_stash m pSource rand hlevel
  have hcopies : (Init_OCU L m pSource rand).1.copies = occupants Block.real (filledTree m pSource rand).flatten := by
    unfold State.copies
    rw [occupants_append, occupants_of_holes hdummy, List.append_nil, Init_OCU_eq m pSource rand hlevel]
  have hmade : ∀ (k : Nat) (bucket : List (Block L.bytes)), (filledTree m pSource rand)[k]? = some bucket →
      ∀ c ∈ bucket, c.real = true → ∃ b < L.nBlock, c = made m pSource rand b ∧
        k ∈ pathTo L.level (drawLeaf L (rand b)).val := by
    intro k bucket hk c hc hr
    obtain ⟨b, hb, he, i, hi, -, hkey⟩ := filledTree_stored m pSource rand hlevel hm hk hc hr
    refine ⟨b, hb, he, mem_pathTo.mpr ⟨i, hi, ?_⟩⟩
    have hpos := Nat.two_pow_pos i
    unfold node
    rw [hkey, Nat.shiftRight_eq_div_pow]
    omega
  have hmap : ∀ b < L.nBlock, (Init_OCU L m pSource rand).1.pos_map b = drawLeaf L (rand b) := by
    intro b hb
    rw [Init_OCU_eq m pSource rand hlevel]
    exact if_pos hb
  have htree : (Init_OCU L m pSource rand).1.OblivSK = filledTree m pSource rand := by
    rw [Init_OCU_eq m pSource rand hlevel]
  refine ⟨⟨?_, le_rfl, (by decide : DEFAULT_STASH_LENGTH ≤ MAX_STASH_NUM),
    fun c hc => hdummy c (List.mem_of_mem_drop hc)⟩, ⟨?_, ?_, ?_, ?_, ?_, ?_⟩⟩
  · exact (List.length_map _).trans List.length_range
  · rw [htree]
    exact (filledTree_shape m pSource rand).1
  · rw [htree]
    exact (filledTree_shape m pSource rand).2
  · intro b hb
    have hlt := nBlock_lt_dummy hlevel
    rw [hcopies, ← count_occupants (by omega)]
    exact count_of_noOverflow m pSource rand hlevel hm h hb
  · intro c hc hid
    rw [hcopies] at hc
    obtain ⟨hc, hr⟩ := mem_occupants.mp hc
    obtain ⟨bucket, hbucket, hc⟩ := List.mem_flatten.mp hc
    obtain ⟨k, hk⟩ := List.mem_iff_getElem?.mp hbucket
    obtain ⟨b, hb, rfl, -⟩ := hmade k bucket hk c hc hr
    rw [made_id m pSource rand hlevel hb, hmap b hb]
    rfl
  · intro b hb
    rw [hmap b hb]
    exact drawLeaf_lt L (rand b)
  · intro k bucket hk c hc hr hid
    rw [htree] at hk
    obtain ⟨b, hb, rfl, hpath⟩ := hmade k bucket hk c hc hr
    rw [made_id m pSource rand hlevel hb, hmap b hb]
    exact hpath

theorem noOverflow_of_stored (hall : ∀ b < L.nBlock, Stored pSource (Init_OCU L m pSource rand).1 b) :
    NoOverflow L rand := by
  refine (allSkipped_eq_nil_iff m pSource rand hlevel hm).mp (List.eq_nil_iff_forall_not_mem.mpr fun c hc => ?_)
  obtain ⟨b, hb, rfl⟩ := List.mem_map.mp
    ((placed_or_skipped m pSource rand hlevel).mem_iff.mp (List.mem_append_right _ hc))
  have hb := List.mem_range.mp hb
  have hlt := nBlock_lt_dummy hlevel
  have hcount := count_add_skipped m pSource rand hlevel hm hb
  have hskip := count_id_of_mem hc
  rw [made_id m pSource rand hlevel hb] at hskip
  have htree : 0 < ((filledTree m pSource rand).flatten.map fun c => c.blockID.val).count b := by
    obtain ⟨c, hid, -, hstash | ⟨k, -, bucket, hk, hmem⟩⟩ := hall b hb
    · have hdummy := Block.real_eq_false_iff.mp (dummy_of_mem_stash m pSource rand hlevel hstash)
      rw [hdummy] at hid
      have hval : DUMMY_FLAG.val = 65535 := rfl
      omega
    · rw [Init_OCU_eq m pSource rand hlevel] at hk
      rw [← hid]
      exact count_id_of_mem (List.mem_flatten.mpr ⟨bucket, List.mem_of_getElem? hk, hmem⟩)
  omega

theorem stored_of_noOverflow (hover : NoOverflow L rand) {b : Nat} (hb : b < L.nBlock) :
    Stored pSource (Init_OCU L m pSource rand).1 b := by
  have hwf := Init_OCU_wellFormed m pSource rand hlevel hm hover
  have hcount := count_of_noOverflow m pSource rand hlevel hm hover hb
  obtain ⟨c, hc, hid⟩ := exists_of_count_id (Nat.lt_of_lt_of_eq Nat.one_pos hcount.symm)
  obtain ⟨bucket, hbucket, hmem⟩ := List.mem_flatten.mp hc
  obtain ⟨k, hk⟩ := List.mem_iff_getElem?.mp hbucket
  have hr := real_of_lt hwf.toPlaced (c := c) (by omega)
  obtain ⟨b', hb', rfl, -⟩ := filledTree_stored m pSource rand hlevel hm hk hmem hr
  rw [made_id m pSource rand hlevel hb'] at hid
  subst hid
  have htree : (Init_OCU L m pSource rand).1.OblivSK[k]? = some bucket := by
    rw [Init_OCU_eq m pSource rand hlevel]
    exact hk
  have hpath := hwf.on_path k bucket htree _ hmem hr (by rwa [made_id m pSource rand hlevel hb])
  rw [made_id m pSource rand hlevel hb] at hpath
  exact ⟨_, made_id m pSource rand hlevel hb, made_holdsSource m pSource rand hlevel hb,
    Or.inr ⟨k, hpath, bucket, htree, hmem⟩⟩

end Overflow

section Init
variable {sketchType : SketchType} {size_sk sizeBlock sizeBucket : Nat} {needComStash : Bool}
  {hsize : ∃ e, 4 ≤ e ∧ e ≤ 15 ∧ sizeBlock = 2 ^ e}

/-- **`Init_OCU`** for every size of the sketch, all draws and every source. -/
theorem Init_OCU_initialised (h : layoutOf sketchType size_sk sizeBlock sizeBucket needComStash hsize = some L)
    (hm : 0 < sizeBucket) (m : Memory L) (pSource : Nat → Byte) (rand : Nat → Int) :
    Initialised pSource (Init_OCU L m pSource rand).1 (Init_OCU L m pSource rand).2 := by
  obtain ⟨hlevel, rfl⟩ := layoutOf_level h
  rw [Init_OCU_eq m pSource rand hlevel]
  refine ⟨?_, ?_, ?_, ?_, ?_, ?_⟩
  · intro b hb he
    have hid := congrArg Fin.val he
    have hlt := nBlock_lt_dummy hlevel
    rw [toBid_val, Nat.mod_eq_of_lt (by omega)] at hid
    have hval : DUMMY_FLAG.val = 65535 := rfl
    omega
  · intro b hb
    have := count_add_skipped m pSource rand hlevel hm hb
    dsimp only
    omega
  · intro k bucket hk c hc hr
    obtain ⟨b, hb, rfl, i, hi, -, hkey⟩ := filledTree_stored m pSource rand hlevel hm hk hc hr
    refine ⟨b, hb, made_id m pSource rand hlevel hb, ⟨i, hi, ?_⟩, ?_, ?_, made_holdsSource m pSource rand hlevel hb⟩
    all_goals dsimp only
    all_goals rw [if_pos hb]
    · exact hkey
    · rfl
    · exact drawLeaf_lt L (rand b)
  · exact fun bucket hbucket => filledTree_real_first m pSource rand hlevel hm hbucket
  · intro b hb hout
    dsimp only
    rw [if_pos hb]
    exact filledTree_full m pSource rand hlevel hm hb hout
  · exact filledTree_add_failed m pSource rand hlevel hm

/-- **No block is lost** if and only if no bucket overflows. -/
theorem Init_OCU_stored_iff (h : layoutOf sketchType size_sk sizeBlock sizeBucket needComStash hsize = some L)
    (hm : 0 < sizeBucket) (m : Memory L) (pSource : Nat → Byte) (rand : Nat → Int) :
    (∀ b < L.nBlock, Stored pSource (Init_OCU L m pSource rand).1 b) ↔ NoOverflow L rand := by
  obtain ⟨hlevel, rfl⟩ := layoutOf_level h
  exact ⟨noOverflow_of_stored m pSource rand hlevel hm,
    fun hover b hb => stored_of_noOverflow m pSource rand hlevel hm hover hb⟩

end Init

/-! ## A small sketch -/

theorem layoutOf_small (sizeBucket : Nat) :
    layoutOf .C 24 16 sizeBucket false sizeBlock_16 = some (small sizeBucket 2) := by
  rfl

def zeroMemory (L : Layout) : Memory L where
  sk := fun _ => ⟨0, 0, fun _ => 0⟩
  stash := fun _ => ⟨0, 0, fun _ => 0⟩
  pos_map := fun _ => 0
  OblivSK := fun _ => ⟨0, 0, fun _ => 0⟩

theorem Init_OCU_initialised_small : Initialised (fun k => toByte k)
    (Init_OCU (small 1 2) (zeroMemory _) (fun k => toByte k) fun _ => 0).1
    (Init_OCU (small 1 2) (zeroMemory _) (fun k => toByte k) fun _ => 0).2 :=
  Init_OCU_initialised (layoutOf_small 1) (by decide) _ _ _

/-- Two places are enough for both blocks. -/
theorem noOverflow_small : NoOverflow (small 2 2) fun _ => 0 := by
  intro i hi k
  apply List.countP_le_length.trans
  rw [List.length_range']
  rcases i with _ | _ | i
  · exact absurd hi (by decide)
  · exact le_rfl
  · have hlt : 2 < 2 ^ (i + 2) := by
      rw [pow_add]
      have := Nat.two_pow_pos i
      omega
    have hbit : (2 : Nat).testBit (i + 2) = true := hi
    rw [Nat.testBit_eq_false_of_lt hlt] at hbit
    exact absurd hbit Bool.false_ne_true

theorem Init_OCU_stored_iff_small :
    let s := (Init_OCU (small 2 2) (zeroMemory _) (fun k => toByte k) fun _ => 0).1
    Stored (fun k => toByte k) s 0 ∧ Stored (fun k => toByte k) s 1 := by
  intro s
  have hall := (Init_OCU_stored_iff (layoutOf_small 2) (by decide) (zeroMemory _) (fun k => toByte k) fun _ => 0).mpr
    noOverflow_small
  exact ⟨hall 0 (by decide), hall 1 (by decide)⟩

/-- With one place a bucket and both blocks drawing leaf `0` the second block is lost. -/
theorem Init_OCU_small_dropped : ¬ ∀ b < 2,
    Stored (fun k => toByte k) (Init_OCU (small 1 2) (zeroMemory _) (fun k => toByte k) fun _ => 0).1 b := by
  intro h
  have hover := noOverflow_of_stored (zeroMemory (small 1 2)) (fun k => toByte k) (fun _ => 0) rfl (by decide) h
  exact absurd (hover 1 (by decide) 0) (by decide)

end FOSketch.Oram
