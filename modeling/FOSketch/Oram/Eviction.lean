import FOSketch.Oram.Access

/-!
# The eviction routines

`ORebuildStash_CL` scans the stash a cache line at a time, and its `break` leaves the line only. Like the other four
routines it fills every place of the path with the first visible block that may lie there, whatever `cond` keeps from an
earlier slot (`evictLines_eq`), so all five leave the same path and stash (`rebuildStash_agree`). Nothing is lost,
every block lies where its leaf allows it, and a block stays only if all its buckets are full (`ORebuildStash_evicts`).
-/

namespace FOSketch.Oram

open Slots

variable {n : Nat} {L : Layout}

/-! ## A cache line at a time -/

/-- The inner loop of `ORebuildStash_CL` over the slots of one line, up to its `break`: the slots, the place, `cond` and
`found`. -/
def evictLine (q : Block n → Bool) :
    Bool → Bool → Block n → List (Block n) → List (Block n) × Block n × Bool × Bool
  | cond, found, p, [] => ([], p, cond, found)
  | cond, found, p, s :: slots =>
    let cond := if s.real then q s else cond
    if cond && !found then (s.erase :: slots, s, false, true)
    else
      let r := evictLine q cond found p slots
      (s :: r.1, r.2)

/-- The loop over `l`, with `turns` turns of `pace` slots to go. -/
def evictLines (q : Block n → Bool) (pace : Nat) :
    Nat → Bool → Bool → Block n → List (Block n) → List (Block n) × Block n
  | 0, _, _, p, slots => (slots, p)
  | turns + 1, cond, found, p, slots =>
    let r := evictLine q cond found p (slots.take pace)
    let t := evictLines q pace turns r.2.2.1 r.2.2.2 r.2.1 (slots.drop pace)
    (r.1 ++ t.1, t.2)

/-- With blocks longer than a line the step of `l` is `0`, and the loop over `l` does not end. -/
def ORebuildStash_CL {L : Layout} (_ : L.sizeBlock ≤ CACHE_LINE) (s : State L) (Path : List (List (Block L.bytes)))
    (leaf : Nat) : State L × List (List (Block L.bytes)) :=
  let pace := CACHE_LINE / L.sizeBlock
  rebuildLoop (fun i => fillPlaces fun p slots =>
    evictLines (onPath L.level s.pos_map leaf i) pace (slots.length ⌈/⌉ pace) false false p slots) s Path

theorem Layout.sizeBlock_le_line (L : Layout) :
    L.sizeBlock ≤ CACHE_LINE ↔ L.sizeBlock = 16 ∨ L.sizeBlock = 32 ∨ L.sizeBlock = 64 := by
  obtain ⟨e, he, -, h⟩ := L.sizeBlock_eq
  unfold CACHE_LINE
  constructor
  · intro hle
    have hlt : e < 7 := by
      rw [h] at hle
      exact (Nat.pow_lt_pow_iff_right (by decide : 1 < 2)).mp (hle.trans_lt (by decide))
    interval_cases e <;> simp [h]
  · omega

theorem evictLine_found (q : Block n → Bool) (cond : Bool) (p : Block n) (slots : List (Block n)) :
    ∃ cond', evictLine q cond true p slots = (slots, p, cond', true) := by
  induction slots generalizing cond with
  | nil => exact ⟨cond, rfl⟩
  | cons s slots ih =>
    obtain ⟨cond', h⟩ := ih (if s.real then q s else cond)
    exact ⟨cond', by simp [evictLine, h]⟩

theorem evictLines_found (q : Block n → Bool) (pace turns : Nat) (cond : Bool) (p : Block n) (slots : List (Block n)) :
    evictLines q pace turns cond true p slots = (slots, p) := by
  induction turns generalizing cond slots with
  | zero => rfl
  | succ turns ih =>
    obtain ⟨cond', h⟩ := evictLine_found q cond p (slots.take pace)
    simp only [evictLines, h, ih, List.take_append_drop]

/-- As long as no block was found, `cond` is false: a dummy keeps it, and a block with `cond` is found at once. -/
theorem evictLine_eq (q : Block n → Bool) (p : Block n) (slots : List (Block n)) :
    evictLine q false false p slots =
      ((takeFirst Block.real Block.erase q slots).2, (takeFirst Block.real Block.erase q slots).1.getD p, false,
        (takeFirst Block.real Block.erase q slots).1.isSome) := by
  induction slots with
  | nil => rfl
  | cons s slots ih =>
    unfold evictLine
    cases hs : s.real with
    | false =>
      rw [takeFirst_cons_neg (by rw [hs, Bool.false_and])]
      simp [ih]
    | true =>
      cases hq : q s with
      | false =>
        rw [takeFirst_cons_neg (by rw [hs, hq, Bool.and_false])]
        simp [ih]
      | true =>
        rw [takeFirst_cons_pos (by rw [hs, hq, Bool.and_true])]
        simp

/-- The lines together are scanned like the slots, with turns enough for all of them. -/
theorem evictLines_eq (q : Block n → Bool) {pace turns : Nat} (p : Block n) {slots : List (Block n)}
    (hturns : slots.length ≤ turns * pace) :
    evictLines q pace turns false false p slots =
      ((takeFirst Block.real Block.erase q slots).2, (takeFirst Block.real Block.erase q slots).1.getD p) := by
  induction turns generalizing slots with
  | zero =>
    obtain rfl : slots = [] := List.eq_nil_of_length_eq_zero (by omega)
    rfl
  | succ turns ih =>
    have hrest : (slots.drop pace).length ≤ turns * pace := by
      rw [List.length_drop]
      rw [Nat.succ_mul] at hturns
      omega
    rw [evictLines, evictLine_eq]
    dsimp only
    cases hf : (takeFirst Block.real Block.erase q (slots.take pace)).1 with
    | none =>
      have hno := takeFirst_fst_none hf
      have hall := @takeFirst_append_of_none _ Block.real Block.erase _ _ hno (slots.drop pace)
      rw [List.take_append_drop] at hall
      rw [hall, takeFirst_of_none hno]
      simp only [Option.getD_none, Option.isSome_none, ih hrest]
    | some x =>
      obtain ⟨hmem, hr, hq⟩ := takeFirst_fst_some hf
      have hfound : ∃ s ∈ slots.take pace, (s.real && q s) = true := ⟨x, hmem, by rw [hr, hq]; rfl⟩
      have hall := @takeFirst_append_of_some _ Block.real Block.erase _ _ hfound (slots.drop pace)
      rw [List.take_append_drop] at hall
      rw [hall, hf]
      simp only [Option.getD_some, Option.isSome_some, evictLines_found]

/-! ## All five routines -/

/-- The path and the stash when every place took the first visible block that may lie there. -/
def evicted {L : Layout} (s : State L) (Path : List (List (Block L.bytes))) (leaf : Nat) :
    State L × List (List (Block L.bytes)) :=
  let r := rebuild Block.real Block.erase (onPath L.level s.pos_map leaf) 0 (cleared Path) (s.stash.take s.length_st)
  ({ s with stash := r.2 ++ s.stash.drop s.length_st }, r.1)

theorem ORebuildStash_eq (s : State L) (Path : List (List (Block L.bytes))) (leaf : Nat) :
    ORebuildStash s Path leaf =
      (if L.needComStash then OCompressStash (evicted s Path leaf).1 else (evicted s Path leaf).1,
        (evicted s Path leaf).2) := by
  unfold ORebuildStash
  simp only [OMoveEx_eq_copyIf]
  rw [rebuildLoop_eq s (q := onPath L.level s.pos_map leaf) fun _ bucket slots =>
    fillPlaces_eq (evictScan_eq _) bucket slots]
  split_ifs <;> rfl

theorem rebuildStash_eq (s : State L) (Path : List (List (Block L.bytes))) (leaf : Nat) :
    rebuildStash s Path leaf = evicted s Path leaf :=
  rebuildLoop_eq s (fun i bucket slots => fillCursor_eq (onPath L.level s.pos_map leaf i) bucket (by simp)) Path

theorem ORebuildStash_S_eq (s : State L) (Path : List (List (Block L.bytes))) (leaf : Nat) :
    ORebuildStash_S s Path leaf = evicted s Path leaf :=
  rebuildLoop_eq s (fun i bucket slots => fillPlaces_eq (evictScan_SF_eq (onPath L.level s.pos_map leaf i)) bucket slots)
    Path

theorem ORebuildStash_F_eq (s : State L) (Path : List (List (Block L.bytes))) (leaf : Nat) :
    ORebuildStash_F s Path leaf = evicted s Path leaf := ORebuildStash_S_eq s Path leaf

theorem ORebuildStash_CL_eq (hline : L.sizeBlock ≤ CACHE_LINE) (s : State L) (Path : List (List (Block L.bytes)))
    (leaf : Nat) : ORebuildStash_CL hline s Path leaf = evicted s Path leaf := by
  have hpace : 0 < CACHE_LINE / L.sizeBlock := Nat.div_pos hline (by have := L.sizeBlock_le; omega)
  apply rebuildLoop_eq s _ Path
  intro i bucket slots
  apply fillPlaces_eq
  intro p slots
  apply evictLines_eq
  rw [Nat.mul_comm]
  exact (ceilDiv_le_iff_le_mul hpace).mp le_rfl

/-- **The five eviction routines** leave the same path and the same stash. -/
theorem rebuildStash_agree (hcom : L.needComStash = false) (hline : L.sizeBlock ≤ CACHE_LINE) (s : State L)
    (Path : List (List (Block L.bytes))) (leaf : Nat) :
    ORebuildStash s Path leaf = rebuildStash s Path leaf ∧ ORebuildStash_S s Path leaf = rebuildStash s Path leaf ∧
      ORebuildStash_F s Path leaf = rebuildStash s Path leaf ∧
      ORebuildStash_CL hline s Path leaf = rebuildStash s Path leaf := by
  rw [rebuildStash_eq, ORebuildStash_eq, ORebuildStash_S_eq, ORebuildStash_F_eq, ORebuildStash_CL_eq, hcom]
  exact ⟨rfl, rfl, rfl, rfl⟩

def dummyPath : List (List (Block (small 1 2).bytes)) := List.replicate 2 [flat 1 2 DUMMY_FLAG 0 3]

theorem rebuildStash_agree_twoStashed :
    ORebuildStash twoStashed dummyPath 1 = rebuildStash twoStashed dummyPath 1 ∧
      ORebuildStash_S twoStashed dummyPath 1 = rebuildStash twoStashed dummyPath 1 ∧
      ORebuildStash_F twoStashed dummyPath 1 = rebuildStash twoStashed dummyPath 1 ∧
      ORebuildStash_CL ((small 1 2).sizeBlock_le_line.mpr (Or.inl rfl)) twoStashed dummyPath 1 =
        rebuildStash twoStashed dummyPath 1 :=
  rebuildStash_agree rfl _ _ _ _

/-! ## What is evicted -/

section Evicted
variable (s : State L) (Path : List (List (Block L.bytes))) (leaf : Nat)

theorem evicted_take :
    (evicted s Path leaf).1.stash.take s.length_st =
      (rebuild Block.real Block.erase (onPath L.level s.pos_map leaf) 0 (cleared Path) (s.stash.take s.length_st)).2 := by
  have hlen : (rebuild Block.real Block.erase (onPath L.level s.pos_map leaf) 0 (cleared Path)
      (s.stash.take s.length_st)).2.length = min s.length_st s.stash.length := by
    rw [length_rebuild_snd, List.length_take]
  unfold evicted
  dsimp only
  rcases le_total s.length_st s.stash.length with hle | hle
  · exact List.take_left' (hlen.trans (min_eq_left hle))
  · rw [List.drop_of_length_le hle, List.append_nil, List.take_of_length_le]
    exact hlen.le.trans (min_le_left _ _)

theorem evicted_window (h : Window s) : Window (evicted s Path leaf).1 := by
  refine ⟨?_, h.pos, h.le⟩
  unfold evicted
  dsimp only
  rw [List.length_append, length_rebuild_snd, ← List.length_append, List.take_append_drop]
  exact h.length

theorem evicted_perm :
    (occupants Block.real (evicted s Path leaf).2.flatten ++
      occupants Block.real ((evicted s Path leaf).1.stash.take s.length_st)).Perm
        (occupants Block.real (s.stash.take s.length_st)) := by
  rw [evicted_take]
  exact occupants_rebuild Block.real_erase _ 0 (cleared_holes Path) _

theorem onPath_of_mem_evicted {i : Nat} {bucket : List (Block L.bytes)} (hi : (evicted s Path leaf).2[i]? = some bucket)
    {b : Block L.bytes} (hb : b ∈ bucket) (hr : b.real = true) : onPath L.level s.pos_map leaf i b = true := by
  rcases mem_rebuild hi hb with hold | hq
  · rw [cleared_holes Path b hold] at hr
    exact absurd hr Bool.false_ne_true
  · rwa [Nat.zero_add] at hq

/-- A block stays only if its bucket is full. -/
theorem evicted_maximal {i : Nat} {bucket : List (Block L.bytes)} (hi : (evicted s Path leaf).2[i]? = some bucket)
    {b : Block L.bytes} (hb : b ∈ occupants Block.real ((evicted s Path leaf).1.stash.take s.length_st))
    (hq : onPath L.level s.pos_map leaf i b = true) : ∀ c ∈ bucket, c.real = true := by
  obtain ⟨hmem, hr⟩ := mem_occupants.mp hb
  rw [evicted_take] at hmem
  rw [← Nat.zero_add i] at hq
  exact rebuild_maximal Block.real_erase hi hmem hr hq

theorem length_evicted_snd : (evicted s Path leaf).2.map List.length = Path.map List.length := by
  have hmap : (evicted s Path leaf).2.map List.length = (cleared Path).map List.length := map_length_rebuild _ 0 _ _
  rw [hmap, cleared, List.map_map]
  apply List.map_congr_left
  intro bucket _
  exact List.length_map _

theorem visible_ORebuildStash (h : Window s) :
    (occupants Block.real ((ORebuildStash s Path leaf).1.stash.take (ORebuildStash s Path leaf).1.length_st)).Perm
      (occupants Block.real ((evicted s Path leaf).1.stash.take s.length_st)) := by
  rw [ORebuildStash_eq]
  cases L.needComStash with
  | true => exact OCompressStash_visible (evicted_window s Path leaf h)
  | false => exact List.Perm.refl _

theorem ORebuildStash_snd : (ORebuildStash s Path leaf).2 = (evicted s Path leaf).2 := by rw [ORebuildStash_eq]

end Evicted

/-- **`ORebuildStash`** keeps every real block, puts each into a bucket of its leaf, and leaves a block in the stash only if
the buckets it may go to are full. -/
theorem ORebuildStash_evicts {s : State L} (h : Window s) {Path : List (List (Block L.bytes))}
    (hPath : Path.length = L.level + 1) (hbucket : ∀ bucket ∈ Path, bucket.length = L.sizeBucket) (leaf : Nat) :
    let r := ORebuildStash s Path leaf
    let visible := occupants Block.real (r.1.stash.take r.1.length_st)
    (occupants Block.real r.2.flatten ++ visible).Perm (occupants Block.real (s.stash.take s.length_st)) ∧
      (∀ i bucket, r.2[i]? = some bucket → ∀ b ∈ bucket, b.real = true →
        (s.pos_map b.blockID.val).val >>> (L.level - i) = leaf >>> (L.level - i)) ∧
      ∀ b ∈ visible, ∀ i ≤ L.level, (s.pos_map b.blockID.val).val >>> (L.level - i) = leaf >>> (L.level - i) →
        ∃ bucket, r.2[i]? = some bucket ∧ bucket.length = L.sizeBucket ∧ ∀ c ∈ bucket, c.real = true := by
  intro r visible
  have hvis : visible.Perm _ := visible_ORebuildStash s Path leaf h
  have hsnd : r.2 = (evicted s Path leaf).2 := ORebuildStash_snd s Path leaf
  rw [hsnd]
  refine ⟨?_, ?_, ?_⟩
  · exact (hvis.append_left _).trans (evicted_perm s Path leaf)
  · intro i bucket hi b hb hr
    exact beq_iff_eq.mp (onPath_of_mem_evicted s Path leaf hi hb hr)
  · intro b hb i hile he
    have hlens := length_evicted_snd s Path leaf
    have hlen : (evicted s Path leaf).2.length = L.level + 1 := by
      have hcount := congrArg List.length hlens
      rwa [List.length_map, List.length_map, hPath] at hcount
    obtain ⟨bucket, hi⟩ : ∃ bucket, (evicted s Path leaf).2[i]? = some bucket :=
      ⟨_, List.getElem?_eq_getElem (by omega)⟩
    refine ⟨bucket, hi, ?_, evicted_maximal s Path leaf hi (hvis.mem_iff.mp hb) (beq_iff_eq.mpr he)⟩
    have hmem : bucket.length ∈ Path.map List.length := by
      rw [← hlens]
      exact List.mem_map_of_mem (List.mem_of_getElem? hi)
    obtain ⟨c, hc, he'⟩ := List.mem_map.mp hmem
    rw [← he', hbucket c hc]

theorem ORebuildStash_evicts_twoStashed :
    let r := ORebuildStash twoStashed dummyPath 1
    let visible := occupants Block.real (r.1.stash.take r.1.length_st)
    (occupants Block.real r.2.flatten ++ visible).Perm (occupants Block.real (twoStashed.stash.take twoStashed.length_st)) ∧
      (∀ i bucket, r.2[i]? = some bucket → ∀ b ∈ bucket, b.real = true →
        (twoStashed.pos_map b.blockID.val).val >>> (1 - i) = 1 >>> (1 - i)) ∧
      ∀ b ∈ visible, ∀ i ≤ 1, (twoStashed.pos_map b.blockID.val).val >>> (1 - i) = 1 >>> (1 - i) →
        ∃ bucket, r.2[i]? = some bucket ∧ bucket.length = 1 ∧ ∀ c ∈ bucket, c.real = true :=
  ORebuildStash_evicts twoStashed_wellFormed.toStashShape.window rfl (by decide) 1

end FOSketch.Oram
