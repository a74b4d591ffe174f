import FOSketch.Oram.Eviction
import FOSketch.Oram.Filled
import FOSketch.Oram.Shown

/-!
# The entries of the position map that an access touches

`ORebuildStash` evaluates `pos_map[flagS]` in every slot it scans, and the id of a dummy is an index behind the map. At the
root any block may lie, so the first scan there leaves a dummy, if it did not meet one, and the second one meets it. In the
sketches the constructors make, every access looks behind the map (`OAccess_outside`).
-/

namespace FOSketch.Oram

open Slots

variable {n : Nat} {L : Layout}

/-! ## The indices -/

/-- The loop of `OAccess`, which reads an entry of every cache line and that of `bid`. -/
def lookUpIndices (nBlock bid : Nat) : List Nat :=
  let pace := CACHE_LINE / sizeofBid
  (List.range' 0 ((nBlock + (pace - 1)) / pace) pace).flatMap fun i => i :: if i == bid - bid % pace then [bid] else []

/-- `OReadFromStash` reads the position of the block and writes the new one. -/
def readIndices (bid : Nat) : List Nat := [bid, bid]

/-- One scan of `ORebuildStash`: the operand of `OMove` in every slot, and the assertion under `if(flagS != DUMMY_FLAG)`, which
reads the same entry again where `FOSketch.h` does not define it away. -/
def evictIndices (slots : List (Block n)) : List Nat :=
  slots.flatMap fun s => s.blockID.val :: if s.real then [s.blockID.val] else []

/-- `ORebuildStash`; `OCompressStash` does not look at the map. -/
def rebuildIndices (s : State L) (Path : List (List (Block L.bytes))) (leaf : Nat) : List Nat :=
  (levelsSlots (fun i => evictScan (fun px py cond => OMoveEx px py cond L.sizeBlock)
    (onPath L.level s.pos_map leaf i) false false) 0 (Path.map fun bucket => bucket.map Block.erase)
    (s.stash.take s.length_st)).flatMap evictIndices

/-- The indices at which `OAccess` reads or writes `pos_map`. `OWriteToStash` does not look at the map. -/
def OAccessIndices (s : State L) (index : Nat) (r : Int) (blk : Block L.bytes) : List Nat :=
  let bid := (toBid (L.block index)).val
  let leaf := (lookUpLine s.pos_map L.nBlock bid).val
  let Path := readPath s leaf
  let t := (OReadFromStash (OWriteToStash s Path) bid r blk).1
  lookUpIndices L.nBlock bid ++ readIndices bid ++ rebuildIndices t Path leaf

/-- Every entry the access touches is one of the map. -/
def Inside (s : State L) (q : Request L) : Prop := ∀ i ∈ OAccessIndices s q.index q.rand q.buffer, i < L.nBlock

/-! ## What every access keeps -/

/-- The arrays have their sizes and every block a leaf of the tree. Which blocks are where is left open. -/
structure Ready (s : State L) : Prop extends Window s where
  tree_length : s.OblivSK.length = L.nBucket
  bucket_length : ∀ bucket ∈ s.OblivSK, bucket.length = L.sizeBucket
  pos_lt : ∀ b < L.nBlock, (s.pos_map b).val < L.nLeaf

theorem WellFormed.ready {s : State L} (h : WellFormed s) : Ready s where
  toWindow := h.toStashShape.window
  tree_length := h.tree_length
  bucket_length := h.bucket_length
  pos_lt := h.pos_lt

theorem Init_OCU_ready (hlevel : L.level = Nat.log 2 L.nBlock) (m : Memory L) (pSource : Nat → Byte) (rand : Nat → Int) :
    Ready (Init_OCU L m pSource rand).1 := by
  rw [Init_OCU_eq m pSource rand hlevel]
  refine ⟨⟨?_, le_rfl, (by decide : DEFAULT_STASH_LENGTH ≤ MAX_STASH_NUM)⟩, ?_, ?_, ?_⟩
  · exact (List.length_map _).trans List.length_range
  · exact (filledTree_shape m pSource rand).1
  · exact (filledTree_shape m pSource rand).2
  · intro b hb
    dsimp only
    rw [if_pos hb]
    exact drawLeaf_lt L (rand b)

theorem length_readScan (move : Block n → Block n → Bool → Block n) (bid : Nat) (pos : Bid) (found : Bool)
    (blk : Block n) (slots : List (Block n)) : (readScan move bid pos found blk slots).1.length = slots.length := by
  induction slots generalizing found blk with
  | nil => rfl
  | cons s slots ih => simp only [readScan, List.length_cons, ih]

/-- Adding a block moves `length_st` up only, and not behind the stash. -/
theorem addMissing_window (nRecord bid : Nat) (pos : Bid) (i : Nat) {length_st : Nat} (hle : length_st ≤ MAX_STASH_NUM)
    (slots : List (Block n)) :
    (addMissing nRecord bid pos i length_st slots).1.length = slots.length ∧
      length_st ≤ (addMissing nRecord bid pos i length_st slots).2.1 ∧
      (addMissing nRecord bid pos i length_st slots).2.1 ≤ MAX_STASH_NUM := by
  induction slots generalizing i length_st with
  | nil => exact ⟨rfl, le_rfl, hle⟩
  | cons s slots ih =>
    unfold addMissing
    split_ifs with _ _ _ hmax
    · exact ⟨rfl, le_rfl, hle⟩
    · exact ⟨rfl, le_rfl, hle⟩
    · obtain ⟨h1, h2, h3⟩ := ih (i + 1) (not_lt.mp hmax)
      exact ⟨congrArg Nat.succ h1, (Nat.le_add_right _ _).trans h2, h3⟩
    · obtain ⟨h1, h2, h3⟩ := ih (i + 1) hle
      exact ⟨congrArg Nat.succ h1, h2, h3⟩
    · exact ⟨rfl, le_rfl, hle⟩

theorem OReadFromStash_frame (s : State L) (bid : Nat) (r : Int) (blk : Block L.bytes) :
    (OReadFromStash s bid r blk).1.pos_map = Function.update s.pos_map bid (drawLeaf L r) ∧
      (OReadFromStash s bid r blk).1.OblivSK = s.OblivSK := by
  unfold OReadFromStash readLoop addIfMissing
  dsimp only
  split_ifs
  · exact ⟨rfl, rfl⟩
  · exact ⟨rfl, rfl⟩

theorem Window.OReadFromStash {s : State L} (h : Window s) (bid : Nat) (r : Int) (blk : Block L.bytes) :
    Window (OReadFromStash s bid r blk).1 := by
  have hlen : ((readScan copyIf bid (drawLeaf L r) false blk (s.stash.take s.length_st)).1 ++
      s.stash.drop s.length_st).length = MAX_STASH_NUM := by
    rw [List.length_append, length_readScan, ← List.length_append, List.take_append_drop, h.length]
  rw [OReadFromStash_eq]
  unfold readLoop addIfMissing
  dsimp only
  split_ifs
  · exact ⟨hlen, h.pos, h.le⟩
  · obtain ⟨h1, h2, h3⟩ := addMissing_window L.nRecord bid (drawLeaf L r) 0 h.le
      ((readScan copyIf bid (drawLeaf L r) false blk (s.stash.take s.length_st)).1 ++ s.stash.drop s.length_st)
    exact ⟨h1.trans hlen, h.pos.trans h2, h3⟩

theorem ORebuildStash_frame (s : State L) (Path : List (List (Block L.bytes))) (leaf : Nat) :
    (ORebuildStash s Path leaf).1.pos_map = s.pos_map ∧ (ORebuildStash s Path leaf).1.OblivSK = s.OblivSK := by
  rw [ORebuildStash_eq]
  dsimp only
  split_ifs
  · exact ⟨rfl, rfl⟩
  · exact ⟨rfl, rfl⟩

theorem Window.ORebuildStash {s : State L} (h : Window s) (Path : List (List (Block L.bytes))) (leaf : Nat) :
    Window (ORebuildStash s Path leaf).1 := by
  have hwindow := evicted_window s Path leaf h
  rw [ORebuildStash_eq]
  dsimp only
  split_ifs
  · exact OCompressStash_window hwindow
  · exact hwindow

section Routines
variable {s : State L} (h : Ready s)
include h

theorem Ready.OWriteToStash (Path : List (List (Block L.bytes))) : Ready (OWriteToStash s Path) := by
  obtain ⟨hpos, htree⟩ := OWriteToStash_frame s Path
  refine ⟨h.toWindow.OWriteToStash Path, ?_, ?_, ?_⟩
  · rw [htree]
    exact h.tree_length
  · rw [htree]
    exact h.bucket_length
  · rw [hpos]
    exact h.pos_lt

theorem Ready.OReadFromStash (bid : Nat) (r : Int) (blk : Block L.bytes) : Ready (OReadFromStash s bid r blk).1 := by
  obtain ⟨hpos, htree⟩ := OReadFromStash_frame s bid r blk
  refine ⟨h.toWindow.OReadFromStash bid r blk, ?_, ?_, ?_⟩
  · rw [htree]
    exact h.tree_length
  · rw [htree]
    exact h.bucket_length
  · intro b hb
    rw [hpos]
    by_cases he : b = bid
    · rw [he, Function.update_self]
      exact drawLeaf_lt L r
    · rw [Function.update_of_ne he]
      exact h.pos_lt b hb

theorem Ready.ORebuildStash (Path : List (List (Block L.bytes))) (leaf : Nat) :
    Ready (ORebuildStash s Path leaf).1 := by
  obtain ⟨hpos, htree⟩ := ORebuildStash_frame s Path leaf
  refine ⟨h.toWindow.ORebuildStash Path leaf, ?_, ?_, ?_⟩
  · rw [htree]
    exact h.tree_length
  · rw [htree]
    exact h.bucket_length
  · rw [hpos]
    exact h.pos_lt

theorem Ready.pushPath {Path : List (List (Block L.bytes))} (hPath : ∀ bucket ∈ Path, bucket.length = L.sizeBucket)
    (leaf : Nat) : Ready (pushPath s Path leaf) := by
  refine ⟨⟨h.length, h.pos, h.le⟩, ?_, ?_, h.pos_lt⟩
  · exact (length_writeAt _ _ _).trans h.tree_length
  · intro bucket hmem
    rcases mem_writeAt hmem with hold | hnew
    · exact h.bucket_length bucket hold
    · exact hPath bucket hnew

end Routines

theorem ORebuildStash_bucket (s : State L) {Path : List (List (Block L.bytes))}
    (hPath : ∀ bucket ∈ Path, bucket.length = L.sizeBucket) (leaf : Nat) :
    ∀ bucket ∈ (ORebuildStash s Path leaf).2, bucket.length = L.sizeBucket := by
  intro bucket hmem
  have hsize : bucket.length ∈ Path.map List.length := by
    rw [← length_evicted_snd s Path leaf, ← ORebuildStash_snd]
    exact List.mem_map_of_mem hmem
  obtain ⟨old, hold, he⟩ := List.mem_map.mp hsize
  rw [← he, hPath old hold]

/-- The leaf an access looks up is one of the tree. -/
theorem Ready.leaf_lt {s : State L} (h : Ready s) {bid : Nat} (hb : bid < L.nBlock) :
    (lookUpLine s.pos_map L.nBlock bid).val < 2 ^ L.level := by
  rw [lookUpLine_eq s.pos_map hb]
  exact h.pos_lt bid hb

/-- **An access of a block** keeps the sketch ready, however many blocks come together. -/
theorem Ready.run {s : State L} (h : Ready s) (q : Request L) (hb : (toBid (L.block q.index)).val < L.nBlock) :
    Ready (q.run s).1 := by
  obtain ⟨-, hPath⟩ := readPath_shape_of_tree h.tree_length h.bucket_length (h.leaf_lt hb)
  have hwritten := h.OWriteToStash (readPath s (lookUpLine s.pos_map L.nBlock (toBid (L.block q.index)).val).val)
  have hread := hwritten.OReadFromStash (toBid (L.block q.index)).val q.rand q.buffer
  apply (hread.ORebuildStash _ _).pushPath
  exact ORebuildStash_bucket _ hPath _

theorem Ready.runAll {s : State L} (h : Ready s) {reqs : List (Request L)}
    (hreqs : ∀ q ∈ reqs, (toBid (L.block q.index)).val < L.nBlock) : Ready (s.runAll reqs) := by
  induction reqs generalizing s with
  | nil => exact h
  | cons q reqs ih =>
    obtain ⟨hq, hrest⟩ := List.forall_mem_cons.mp hreqs
    exact ih (h.run q hq) hrest

/-! ## The scans at the root -/

/-- The root is scanned last, once for every place. -/
theorem scanLevels_root {m : Nat} (hm : L.sizeBucket = m + 2) :
    ∃ js, scanLevels L = js ++ 0 :: 0 :: List.replicate m 0 := by
  refine ⟨((List.range' 1 L.level).reverse.flatMap fun i => List.replicate L.sizeBucket i), ?_⟩
  unfold scanLevels
  rw [List.range_eq_range', List.range'_succ, List.reverse_cons, List.flatMap_append, List.flatMap_singleton, hm]
  rfl

theorem id_mem_evictIndices {s : Block n} {slots : List (Block n)} (h : s ∈ slots) : s.blockID.val ∈ evictIndices slots :=
  List.mem_flatMap.mpr ⟨s, h, List.mem_cons_self⟩

theorem onPath_root {pos_map : Nat → Bid} {leaf : Nat} (hleaf : leaf < 2 ^ L.level) {b : Block n}
    (hb : (pos_map b.blockID.val).val < 2 ^ L.level) : onPath L.level pos_map leaf 0 b = true := by
  unfold onPath
  rw [beq_iff_eq, Nat.sub_zero, Nat.shiftRight_eq_div_pow, Nat.shiftRight_eq_div_pow, Nat.div_eq_of_lt hb,
    Nat.div_eq_of_lt hleaf]

/-- With two places in the root, one of the last scans meets a dummy. -/
theorem exists_dummy_scanned {t : State L} (ht : Ready t) {leaf : Nat} (hleaf : leaf < 2 ^ L.level)
    (hm : 2 ≤ L.sizeBucket) :
    ∃ slots ∈ snapshots Block.real Block.erase ((scanLevels L).map (onPath L.level t.pos_map leaf)) t.visible,
      ∃ b ∈ slots, L.nBlock ≤ b.blockID.val ∨ b.real = false := by
  have hvisible : t.visible ≠ [] := by
    intro hnil
    have hlen := ht.length_take
    have hpos := ht.pos
    rw [← State.visible, hnil] at hlen
    rw [← hlen] at hpos
    exact Nat.not_succ_le_zero 4 hpos
  obtain ⟨js, hjs⟩ := scanLevels_root (L := L) (m := L.sizeBucket - 2) (by omega)
  rw [hjs, List.map_append, List.map_cons, List.map_cons]
  have hbefore : takes Block.real Block.erase (js.map (onPath L.level t.pos_map leaf)) t.visible ∈ _ :=
    takes_mem_snapshots _ (onPath L.level t.pos_map leaf 0) (onPath L.level t.pos_map leaf 0 ::
      (List.replicate (L.sizeBucket - 2) 0).map (onPath L.level t.pos_map leaf)) t.visible
  by_cases hall : ∀ b ∈ takes Block.real Block.erase (js.map (onPath L.level t.pos_map leaf)) t.visible,
      b.blockID.val < L.nBlock
  · obtain ⟨slots, hslots, b, hb, hdummy⟩ := exists_hole_of_two_scans Block.real_erase hvisible fun b hb _ =>
      onPath_root hleaf (ht.pos_lt _ (hall b hb))
    exact ⟨slots, hslots, b, hb, Or.inr hdummy⟩
  · obtain ⟨b, hb, hid⟩ := not_forall₂.mp hall
    exact ⟨_, hbefore, b, hb, Or.inl (not_lt.mp hid)⟩

/-- **With two places in the root** every access looks behind the map. -/
theorem not_inside {s : State L} (h : Ready s) (hm : 2 ≤ L.sizeBucket) (hn : L.nBlock ≤ DUMMY_FLAG.val) (q : Request L) :
    ¬ Inside s q := by
  intro hin
  unfold Inside OAccessIndices at hin
  dsimp only at hin
  generalize (toBid (L.block q.index)).val = bid at hin
  have hb : bid < L.nBlock := by
    apply hin
    simp [readIndices]
  have hleaf := h.leaf_lt hb
  generalize (lookUpLine s.pos_map L.nBlock bid).val = leaf at hin hleaf
  obtain ⟨hlen, hbucket⟩ := readPath_shape_of_tree h.tree_length h.bucket_length hleaf
  have ht := (h.OWriteToStash (readPath s leaf)).OReadFromStash bid q.rand q.buffer
  generalize (OReadFromStash (OWriteToStash s (readPath s leaf)) bid q.rand q.buffer).1 = t at hin ht
  obtain ⟨slots, hslots, b, hbmem, hout⟩ := exists_dummy_scanned ht hleaf hm
  have hid : b.blockID.val < L.nBlock := by
    apply hin
    apply List.mem_append_right
    rw [rebuildIndices, ← State.visible, rebuildSlots_eq hlen hbucket]
    exact List.mem_flatMap.mpr ⟨slots, hslots, id_mem_evictIndices hbmem⟩
  rcases hout with hge | hdummy
  · omega
  · rw [Block.real_eq_false_iff.mp hdummy] at hid
    omega

/-- A sketch without blocks has no entry. -/
theorem not_inside_empty (hn : L.nBlock = 0) (s : State L) (q : Request L) : ¬ Inside s q := by
  intro hin
  have hb : (toBid (L.block q.index)).val < L.nBlock := by
    apply hin
    simp [OAccessIndices, readIndices]
  omega

/-! ## The sketches of the constructors -/

inductive Made : Layout → Prop
  | C (needComStash : Bool) (hsize : ∃ e, 4 ≤ e ∧ e ≤ 15 ∧ SIZE_BLOCK = 2 ^ e) (M : Layout)
      (h : layoutOf .C CUSKETCH_MEM SIZE_BLOCK SIZE_BUCKET needComStash hsize = some M) : Made M
  | T (needComStash : Bool) (hsize : ∃ e, 4 ≤ e ∧ e ≤ 15 ∧ SIZE_BLOCK = 2 ^ e) (M : Layout)
      (h : layoutOf .T ST_TABLE_MEM SIZE_BLOCK SIZE_BUCKET needComStash hsize = some M) : Made M
  | L (w_sk sizeBl sizeBk : Nat) (compStash : Bool) (hsize : ∃ e, 4 ≤ e ∧ e ≤ 15 ∧ sizeBl = 2 ^ e) (M : Layout)
      (h : layoutOf .L w_sk sizeBl sizeBk compStash hsize = some M) : Made M

theorem layoutOf_nBlock {sketchType : SketchType} {size_sk sizeBlock sizeBucket : Nat} {needComStash : Bool}
    {hsize : ∃ e, 4 ≤ e ∧ e ≤ 15 ∧ sizeBlock = 2 ^ e}
    (h : layoutOf sketchType size_sk sizeBlock sizeBucket needComStash hsize = some L) :
    L.nBlock = nBlockOf sketchType size_sk sizeBlock := by
  unfold layoutOf at h
  dsimp only at h
  split_ifs at h
  rw [← Option.some.inj h]

theorem Made.level_eq (h : Made L) : L.level = Nat.log 2 L.nBlock := by
  cases h with
  | C _ _ _ h => exact (layoutOf_level h).1
  | T _ _ _ h => exact (layoutOf_level h).1
  | L _ _ _ _ _ _ h => exact (layoutOf_level h).1

theorem Made.sizes (h : Made L) : L.nBlock = 0 ∨ 2 ≤ L.sizeBucket ∧ L.nBlock ≤ DUMMY_FLAG.val := by
  have hplaces : 2 ≤ SIZE_BUCKET := by decide
  cases h with
  | C _ _ _ h =>
    have hn : nBlockOf .C CUSKETCH_MEM SIZE_BLOCK ≤ DUMMY_FLAG.val := by decide +kernel
    rw [layoutOf_nBlock h, (layoutOf_level h).2]
    exact Or.inr ⟨hplaces, hn⟩
  | T _ _ _ h =>
    have hn : nBlockOf .T ST_TABLE_MEM SIZE_BLOCK ≤ DUMMY_FLAG.val := by decide +kernel
    rw [layoutOf_nBlock h, (layoutOf_level h).2]
    exact Or.inr ⟨hplaces, hn⟩
  | L _ _ _ _ _ _ h => exact Or.inl (layoutOf_nBlock h)

theorem Made.not_inside (h : Made L) {s : State L} (hs : Ready s) (q : Request L) : ¬ Inside s q := by
  rcases h.sizes with hn | ⟨hm, hn⟩
  · exact not_inside_empty hn s q
  · exact Oram.not_inside hs hm hn q

/-- **Every access looks behind the position map**, in every state that a run of accesses leaves and in every other one
whose arrays have their sizes and whose leaves are leaves of the tree. -/
theorem OAccess_outside (hL : Made L) :
    (∀ (m : Memory L) (pSource : Nat → Byte) (rand : Nat → Int) (reqs : List (Request L)),
      (∀ q ∈ reqs, (toBid (L.block q.index)).val < L.nBlock) → Ready ((Init_OCU L m pSource rand).1.runAll reqs)) ∧
      ∀ (s : State L), Ready s → ∀ q : Request L, ¬ Inside s q := by
  refine ⟨fun m pSource rand reqs hreqs => ?_, fun s hs q => hL.not_inside hs q⟩
  exact (Init_OCU_ready hL.level_eq m pSource rand).runAll hreqs

def sketchC : Layout where
  sketchType := .C
  sizeBlock := 64
  sizeBucket := 5
  nBlock := 7680
  level := 12
  needComStash := true
  sizeBlock_eq := sizeBlock_64
  level_lt := level_12

theorem made_sketchC : Made sketchC := by
  apply Made.C true sizeBlock_64
  rfl

/-- The light sketch of zero counters, the leaf of block `j` being `j` modulo their number. -/
def freshC : State sketchC := (Init_OCU sketchC (zeroMemory sketchC) (fun _ => 0) Int.ofNat).1

theorem OAccess_outside_freshC : ¬ Inside freshC ⟨0, 0, ⟨0, 0, fun _ => 0⟩⟩ :=
  (OAccess_outside made_sketchC).2 _ ((OAccess_outside made_sketchC).1 _ _ _ [] (by simp)) _

/-- The first access to a fresh sketch already does. -/
theorem OAccess_first_outside :
    ¬ (∀ {L : Layout}, Made L → ∀ (s : State L), Ready s → ∀ q : Request L, Inside s q) := by
  intro hall
  have hready : Ready freshC := Init_OCU_ready made_sketchC.level_eq _ _ _
  exact made_sketchC.not_inside hready ⟨0, 0, ⟨0, 0, fun _ => 0⟩⟩ (hall made_sketchC freshC hready _)

/-- Three of the five slots in sight are dummies. -/
example : 65535 ∈ OAccessIndices twoStashed 0 1 (flat 1 2 0 0 0) := by decide +kernel

end FOSketch.Oram
