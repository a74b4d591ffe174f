import FOSketch.Oram.Written

/-!
# What an access shows

`OAccessTrace_eq` brings the trace into the form that is compared: up to `OReadFromStash` it depends on the leaf only,
then comes the cache line of the block, and `ORebuildStash` shows the cache lines of the ids in sight at the start of each
scan (`shownLines`).
-/

namespace FOSketch.Oram

open Slots

variable {n : Nat} {L : Layout}

/-! ## Scans over ids -/

def idReal (c : Bid) : Bool := c != DUMMY_FLAG

def idErase (_ : Bid) : Bid := DUMMY_FLAG

def idOnPath (level : Nat) (pos_map : Nat → Bid) (leaf i : Nat) (c : Bid) : Bool :=
  (pos_map c.val).val >>> (level - i) == leaf >>> (level - i)

theorem idReal_erase (c : Bid) : idReal (idErase c) = false := bne_self_eq_false _

/-- The cache lines of the ids in sight, at the start of each scan. -/
def shownLines (L : Layout) (pos_map : Nat → Bid) (leaf : Nat) (ids : List Bid) : List (List Nat) :=
  (snapshots idReal idErase ((scanLevels L).map (idOnPath L.level pos_map leaf)) ids).map
    (List.map fun c => lineOf c.val)

/-- `evictTrace` with the cache lines it touches. -/
def linesTrace : Nat → List Nat → List Event
  | _, [] => []
  | k, l :: ls => .slot k :: .posLine l :: .slot k :: linesTrace (k + 1) ls

theorem evictTrace_eq (k : Nat) (slots : List (Block n)) :
    evictTrace k slots = linesTrace k ((slots.map Block.blockID).map fun c => lineOf c.val) := by
  induction slots generalizing k with
  | nil => rfl
  | cons s slots ih => rw [evictTrace, ih, List.map_cons, List.map_cons, linesTrace]

theorem linesTrace_injective (k : Nat) {ls ls' : List Nat} (h : linesTrace k ls = linesTrace k ls') : ls = ls' := by
  induction ls generalizing k ls' with
  | nil =>
    cases ls' with
    | nil => rfl
    | cons l' ls' => simp [linesTrace] at h
  | cons l ls ih =>
    cases ls' with
    | nil => simp [linesTrace] at h
    | cons l' ls' =>
      simp only [linesTrace, List.cons.injEq, Event.posLine.injEq, true_and] at h
      rw [h.1, ih (k + 1) h.2]

theorem collapse_linesTrace (k : Nat) (ls : List Nat) (es : List Event) :
    collapse none (linesTrace k ls ++ es) = linesTrace k ls ++ collapse none es := by
  induction ls generalizing k with
  | nil => rfl
  | cons l ls ih =>
    simp only [linesTrace, List.cons_append]
    rw [collapse_slot, collapse_posLine_ne (by simp), collapse_slot, collapse_of_slot _ (by simp), ih]

theorem collapse_flatMap_linesTrace (ss : List (List Nat)) (es : List Event) :
    collapse none (ss.flatMap (linesTrace 0) ++ es) = ss.flatMap (linesTrace 0) ++ collapse none es := by
  induction ss with
  | nil => rfl
  | cons ls ss ih => rw [List.flatMap_cons, List.append_assoc, collapse_linesTrace, ih, List.append_assoc]

theorem length_linesTrace (k : Nat) (ls : List Nat) : (linesTrace k ls).length = 3 * ls.length := by
  induction ls generalizing k with
  | nil => rfl
  | cons l ls ih =>
    simp only [linesTrace, List.length_cons, ih]
    ring

/-- Scans of equal length are told apart one by one. -/
theorem flatMap_linesTrace_injective {m : Nat} {ss ss' : List (List Nat)} (hlen : ss.length = ss'.length)
    (hs : ∀ ls ∈ ss, ls.length = m) (hs' : ∀ ls ∈ ss', ls.length = m)
    (h : ss.flatMap (linesTrace 0) = ss'.flatMap (linesTrace 0)) : ss = ss' := by
  induction ss generalizing ss' with
  | nil => exact (List.length_eq_zero_iff.mp hlen.symm).symm
  | cons ls ss ih =>
    cases ss' with
    | nil => simp at hlen
    | cons ls' ss' =>
      rw [List.flatMap_cons, List.flatMap_cons] at h
      have heq : (linesTrace 0 ls).length = (linesTrace 0 ls').length := by
        rw [length_linesTrace, length_linesTrace, hs ls List.mem_cons_self, hs' ls' List.mem_cons_self]
      obtain ⟨h1, h2⟩ := List.append_inj h heq
      rw [linesTrace_injective 0 h1, ih (Nat.succ_injective hlen) (fun t ht => hs t (List.mem_cons_of_mem _ ht))
        (fun t ht => hs' t (List.mem_cons_of_mem _ ht)) h2]

theorem shownLines_injective {pos_map pos_map' : Nat → Bid} {leaf : Nat} {ids ids' : List Bid}
    (hlen : ids.length = ids'.length)
    (h : (shownLines L pos_map leaf ids).flatMap (linesTrace 0) =
      (shownLines L pos_map' leaf ids').flatMap (linesTrace 0)) :
    shownLines L pos_map leaf ids = shownLines L pos_map' leaf ids' := by
  have hmem : ∀ (pm : Nat → Bid) (is : List Bid), ∀ ls ∈ shownLines L pm leaf is, ls.length = is.length := by
    intro pm is ls hls
    obtain ⟨m, hm, rfl⟩ := List.mem_map.mp hls
    rw [List.length_map, length_of_mem_snapshots hm]
  refine flatMap_linesTrace_injective (m := ids.length) ?_ (hmem _ _) ?_ h
  · simp [shownLines]
  · rw [hlen]
    exact hmem _ _

theorem rebuildSlots_eq {t : State L} {Path : List (List (Block L.bytes))} (hlen : Path.length = L.level + 1)
    (hbucket : ∀ bucket ∈ Path, bucket.length = L.sizeBucket) (leaf : Nat) :
    levelsSlots (fun i => evictScan (fun px py cond => OMoveEx px py cond L.sizeBlock)
        (onPath L.level t.pos_map leaf i) false false) 0 (Path.map fun bucket => bucket.map Block.erase) t.visible =
      snapshots Block.real Block.erase ((scanLevels L).map (onPath L.level t.pos_map leaf)) t.visible := by
  have hcleared : ∀ bucket ∈ Path.map fun bucket => bucket.map Block.erase, bucket.length = L.sizeBucket := by
    intro bucket h
    obtain ⟨b, hb, rfl⟩ := List.mem_map.mp h
    rw [List.length_map, hbucket b hb]
  rw [OMoveEx_eq_copyIf]
  rw [(levelsSlots_eq (fun i p slots => congrArg Prod.fst (evictScan_eq (onPath L.level t.pos_map leaf i) p slots)) 0
    hcleared t.visible).1, List.length_map, hlen, ← List.range_eq_range', ← scanLevels]

theorem rebuildTrace_eq {t : State L} {Path : List (List (Block L.bytes))} (hlen : Path.length = L.level + 1)
    (hbucket : ∀ bucket ∈ Path, bucket.length = L.sizeBucket) (leaf : Nat) :
    rebuildTrace t Path leaf = (shownLines L t.pos_map leaf (t.visible.map Block.blockID)).flatMap (linesTrace 0) := by
  unfold rebuildTrace
  rw [← State.visible, levelsTrace_eq_slots, rebuildSlots_eq hlen hbucket]
  have hids : snapshots idReal idErase ((scanLevels L).map (idOnPath L.level t.pos_map leaf))
      (t.visible.map Block.blockID) = (snapshots Block.real Block.erase
        ((scanLevels L).map (onPath L.level t.pos_map leaf)) t.visible).map (List.map Block.blockID) :=
    snapshots_map (f := Block.blockID) (q := onPath L.level t.pos_map leaf) (P := fun _ => True) (fun _ => trivial)
      (fun _ _ => rfl) (fun _ _ => rfl) (fun _ _ _ _ => rfl) _ fun _ _ => trivial
  rw [shownLines, hids, List.map_map, List.flatMap_map]
  congr 1
  funext slots
  exact evictTrace_eq 0 slots

/-! ## The trace of an access -/

/-- What is touched after the first loop of `OReadFromStash`. -/
def lateTrace (w : State L) (leaf b : Nat) (r : Int) (blk : Block L.bytes) : List Event :=
  let t := (OReadFromStash w b r blk).1
  (if foundIn b w.visible then [] else missingTrace 0 w.length_st w.stash) ++
    (shownLines L t.pos_map leaf (t.visible.map Block.blockID)).flatMap (linesTrace 0) ++
    (if L.needComStash then compressTrace t.length_st else []) ++ pathTrace L.level leaf

theorem toBid_block {s : State L} (h : Placed s) {index : Nat} (hb : L.block index < L.nBlock) :
    (toBid (L.block index)).val = L.block index :=
  Nat.mod_eq_of_lt (by have := h.lt_dummy hb; omega)

theorem readPath_shape_of_tree {s : State L} (htree : s.OblivSK.length = L.nBucket)
    (hbucket : ∀ bucket ∈ s.OblivSK, bucket.length = L.sizeBucket) {leaf : Nat} (hleaf : leaf < 2 ^ L.level) :
    (readPath s leaf).length = L.level + 1 ∧ ∀ bucket ∈ readPath s leaf, bucket.length = L.sizeBucket := by
  rw [readPath, pathBuckets_eq hleaf]
  constructor
  · rw [length_readAt, length_pathTo]
  · intro bucket hmem
    obtain ⟨k, hk, rfl⟩ := List.mem_map.mp hmem
    have hlt : k < s.OblivSK.length := by
      rw [htree]
      exact pathTo_lt hleaf hk
    rw [List.getD_eq_getElem _ _ hlt]
    exact hbucket _ (List.getElem_mem _)

theorem readPath_shape {s : State L} (h : Placed s) {b : Nat} (hb : b < L.nBlock) :
    (readPath s (s.pos_map b).val).length = L.level + 1 ∧
      ∀ bucket ∈ readPath s (s.pos_map b).val, bucket.length = L.sizeBucket :=
  readPath_shape_of_tree h.tree_length h.bucket_length (leaf_lt h hb)

theorem collapse_look_path (nBlock b level leaf : Nat) (es : List Event) :
    collapse none (lookUpTrace nBlock b ++ (pathTrace level leaf ++ es)) =
      (List.range ((nBlock + 31) / 32)).map .posLine ++ (pathTrace level leaf ++ collapse none es) := by
  have hlines := noLines_pathTrace level leaf
  unfold pathTrace pathBuckets at *
  rw [List.map_cons, List.cons_append, collapse_lookUpTrace,
    collapse_noLines_append (List.forall_mem_cons.mp hlines).2, List.cons_append]

/-- The trace of an access to the block `b` on the path of `leaf`. -/
theorem OAccessTrace_eq {s : State L} (h : WellFormed s) {index b leaf : Nat} (hindex : L.block index = b)
    (hb : b < L.nBlock) (hleaf : (s.pos_map b).val = leaf) (r : Int) (blk : Block L.bytes) :
    OAccessTrace s index r blk =
      (List.range ((L.nBlock + 31) / 32)).map .posLine ++ (pathTrace L.level leaf ++ (writeTrace s (readPath s leaf).flatten
        ++ .posLine (lineOf b) :: ((List.range (OWriteToStash s (readPath s leaf)).length_st).map .slot ++
          lateTrace (OWriteToStash s (readPath s leaf)) leaf b r blk))) := by
  have hbid := toBid_block h.toPlaced (show L.block index < L.nBlock by rwa [hindex])
  rw [hindex] at hbid
  have hlook : (lookUpLine s.pos_map L.nBlock b).val = leaf := by rw [lookUpLine_eq s.pos_map hb, hleaf]
  obtain ⟨hlen, hbucket⟩ := readPath_shape h.toPlaced hb
  rw [hleaf] at hlen hbucket
  unfold OAccessTrace
  rw [hindex, hbid]
  dsimp only
  rw [hlook, rebuildTrace_eq hlen hbucket, lateTrace]
  have hw : Written (OWriteToStash s (readPath s leaf)) := h.toStashShape.written.OWriteToStash _
  generalize OWriteToStash s (readPath s leaf) = w at hw
  have hslots : (List.range w.length_st).map Event.slot ≠ [] := by
    have := hw.pos
    rw [DEFAULT_STASH_LENGTH] at this
    simp only [ne_eq, List.map_eq_nil_iff, List.range_eq_nil]
    omega
  generalize (OReadFromStash w b r blk).1 = t
  have hcompress : NoLines ((if L.needComStash then compressTrace t.length_st else []) ++ pathTrace L.level leaf) := by
    apply noLines_append _ (noLines_pathTrace _ _)
    split_ifs
    · exact noLines_compressTrace _
    · exact fun e he => absurd he List.not_mem_nil
  have hmissing : NoLines (if foundIn b w.visible then [] else missingTrace 0 w.length_st w.stash) := by
    split_ifs
    · exact fun e he => absurd he List.not_mem_nil
    · exact noLines_missingTrace _ _ _
  have hend := collapse_noLines_append hcompress []
  rw [List.append_nil, collapse, List.append_nil] at hend
  unfold readTrace
  rw [← State.visible]
  simp only [List.append_assoc, List.cons_append, List.nil_append]
  rw [collapse_look_path, collapse_noLines_append (noLines_writeTrace _ s), collapse_posLine_ne (by simp),
    collapse_posLine_self, collapse_append_of_noLines (noLines_map_slot _) hslots, collapse_noLines_append hmissing,
    collapse_flatMap_linesTrace, hend]

end FOSketch.Oram
