import FOSketch.Slots.Tree
import FOSketch.Sorter

/-!
# The state of class `FOSketch` and its stash routines

A sketch keeps its blocks in a tree of buckets and a stash. `Layout` holds the fields `Init_OCU` sets once, `State` the
ones an access changes. The position map is memory from `pos_map` on, a function of the index: `ORebuildStash` looks up
the position of a dummy, too. The loops over the stash are recursions over its slots, with the loop counter as an
argument where the code compares it with `length_st`.
-/

namespace FOSketch.Oram

/-- `'L'` is the type of a sketch of any size, laid out as `'C'`. -/
inductive SketchType where
  | C
  | T
  | L
  deriving DecidableEq, Repr

/-- `sizeBlock` is a power of two, which `malloc_align` asserts, and fits the `uint16_t` of the sorters; `level` passed the
check of `Init_OCU`. -/
structure Layout where
  sketchType : SketchType
  sizeBlock : Nat
  sizeBucket : Nat
  nBlock : Nat
  level : Nat
  needComStash : Bool
  sizeBlock_eq : ∃ e, 4 ≤ e ∧ e ≤ 15 ∧ sizeBlock = 2 ^ e
  level_lt : level < 16

theorem sizeBlock_16 : ∃ e, 4 ≤ e ∧ e ≤ 15 ∧ 16 = 2 ^ e := ⟨4, by decide, by decide, rfl⟩

theorem sizeBlock_64 : ∃ e, 4 ≤ e ∧ e ≤ 15 ∧ 64 = 2 ^ e := ⟨6, by decide, by decide, rfl⟩

theorem level_1 : 1 < 16 := by decide

theorem level_12 : 12 < 16 := by decide

namespace Layout

def nLeaf (L : Layout) : Nat := 2 ^ L.level

def nBucket (L : Layout) : Nat := 2 ^ (L.level + 1) - 1

def elemSize (L : Layout) : Nat :=
  match L.sketchType with
  | .C | .L => 1
  | .T => sizeofItem

def nRecord (L : Layout) : Nat := (L.sizeBlock - 2 * sizeofBid) / L.elemSize

def payloadInd (L : Layout) : Nat :=
  match L.sketchType with
  | .C | .L => 2 * sizeofBid
  | .T => sizeofItem

def bytes (L : Layout) : Nat := L.sizeBlock - 2 * sizeofBid

end Layout

/-- A block of `n` bytes behind its two ids. -/
structure Block (n : Nat) where
  blockID : Bid
  pos : Bid
  data : Fin n → Byte
  deriving DecidableEq

structure State (L : Layout) where
  stash : List (Block L.bytes)
  length_st : Nat
  OblivSK : List (List (Block L.bytes))
  pos_map : Nat → Bid

variable {n : Nat}

namespace Block

def real (b : Block n) : Bool := b.blockID != DUMMY_FLAG

def erase (b : Block n) : Block n := { b with blockID := DUMMY_FLAG }

@[simp] theorem real_erase (b : Block n) : b.erase.real = false := by
  simp [real, erase]

theorem real_iff {b : Block n} : b.real = true ↔ b.blockID ≠ DUMMY_FLAG := by
  simp [real]

theorem real_eq_false_iff {b : Block n} : b.real = false ↔ b.blockID = DUMMY_FLAG := by
  simp [real]

end Block

/-- `OMoveEx` moves nothing below 16 bytes. -/
def OMoveEx {α : Type*} (px py : α) (cond : Bool) (size : Nat) : α := if size < 16 then px else OMove py px cond

/-- `memcpy(px, py, size)` under `if(cond)`. -/
def copyIf {α : Type*} (px py : α) (cond : Bool) : α := if cond then py else px

theorem Layout.sizeBlock_le (L : Layout) : 16 ≤ L.sizeBlock := by
  obtain ⟨e, he, -, h⟩ := L.sizeBlock_eq
  rw [h]
  exact (Nat.pow_le_pow_right (by decide) he : 2 ^ 4 ≤ 2 ^ e)

theorem Layout.OMoveEx_eq (L : Layout) {α : Type*} (px py : α) (cond : Bool) :
    OMoveEx px py cond L.sizeBlock = copyIf px py cond := by
  unfold OMoveEx
  rw [if_neg (not_lt.mpr L.sizeBlock_le)]
  rfl

theorem OMoveEx_eq_copyIf (L : Layout) :
    (fun px py cond => OMoveEx px py cond L.sizeBlock : Block L.bytes → Block L.bytes → Bool → _) = copyIf := by
  funext px py cond
  exact L.OMoveEx_eq px py cond

/-! ## Paths -/

/-- The values of `delta` in the loop of `readPath` and `pushPath`. -/
def deltas (leaf : Nat) : Nat → Nat → Nat → List Nat
  | 0, _, _ => []
  | i + 1, delta, mask =>
    let delta := delta * 2
    let delta := if mask &&& leaf = 0 then delta else delta + 1
    delta :: deltas leaf i delta (mask >>> 1)

/-- The buckets `readPath` reads and `pushPath` writes, in their order. -/
def pathBuckets (level leaf : Nat) : List Nat := 0 :: (deltas leaf level 1 (1 <<< (level - 1))).map fun delta => delta - 1

def readPath {L : Layout} (s : State L) (leaf : Nat) : List (List (Block L.bytes)) :=
  Slots.readAt s.OblivSK (pathBuckets L.level leaf)

def pushPath {L : Layout} (s : State L) (Path : List (List (Block L.bytes))) (leaf : Nat) : State L :=
  { s with OblivSK := Slots.writeAt s.OblivSK (pathBuckets L.level leaf) Path }

/-! ## Writing a path to the stash -/

/-- The inner loop of `OWriteToStash` from slot `j` on, for the path block `p`. `pace` is what `length_st` grows by. -/
def writeScan (pace : Nat) (move : Block n → Block n → Bool → Block n) (p : Block n) :
    Nat → Nat → Bool → List (Block n) → List (Block n) × Nat
  | _, length_st, _, [] => ([], length_st)
  | j, length_st, found, s :: slots =>
    if j < length_st then
      let cond := !s.real && p.real
      let s' := move s p (cond && !found)
      if j == length_st - 1 && !found && (s.real && p.real) then
        if MAX_STASH_NUM < length_st + pace then (s' :: slots, length_st + pace - 8)
        else
          let r := writeScan pace move p (j + 1) (length_st + pace) (found || cond) slots
          (s' :: r.1, r.2)
      else
        let r := writeScan pace move p (j + 1) length_st (found || cond) slots
        (s' :: r.1, r.2)
    else (s :: slots, length_st)

/-- The outer loop, over the blocks of the path. -/
def writeLoop {L : Layout} (pace : Nat) (move : Block L.bytes → Block L.bytes → Bool → Block L.bytes) (s : State L)
    (Path : List (List (Block L.bytes))) : State L :=
  Path.flatten.foldl (fun s p =>
    let r := writeScan pace move p 0 s.length_st false s.stash
    { s with stash := r.1, length_st := r.2 }) s

def OWriteToStash {L : Layout} (s : State L) (Path : List (List (Block L.bytes))) : State L :=
  writeLoop PACE_STASH (fun px py cond => OMoveEx px py cond L.sizeBlock) s Path

def OWriteToStash_S {L : Layout} (s : State L) (Path : List (List (Block L.bytes))) : State L :=
  writeLoop 8 copyIf s Path

def OWriteToStash_F {L : Layout} (s : State L) (Path : List (List (Block L.bytes))) : State L :=
  writeLoop 8 copyIf s Path

/-- The `while` loop of `writeToStash` for the block `p`, over the slots from `pos_st` on: the slots, `pos_st` and
`length_st` it ends with. -/
def writeCursor (p : Block n) : Nat → Nat → List (Block n) → List (Block n) × Nat × Nat
  | pos_st, length_st, [] => ([], pos_st, length_st)
  | pos_st, length_st, s :: slots =>
    if pos_st < length_st then
      if s.real then
        if pos_st == length_st - 1 then
          if MAX_STASH_NUM < length_st + 8 then (s :: slots, pos_st, length_st)
          else
            let r := writeCursor p (pos_st + 1) (length_st + 8) slots
            (s :: r.1, r.2)
        else
          let r := writeCursor p (pos_st + 1) length_st slots
          (s :: r.1, r.2)
      else (p :: slots, pos_st + 1, length_st)
    else (s :: slots, pos_st, length_st)

/-- One turn of the `for` loop of `writeToStash`; the state comes with `pos_st`. -/
def writeTurn {L : Layout} (t : State L × Nat) (p : Block L.bytes) : State L × Nat :=
  if p.real then
    let r := writeCursor p t.2 t.1.length_st (t.1.stash.drop t.2)
    ({ t.1 with stash := t.1.stash.take t.2 ++ r.1, length_st := r.2.2 }, r.2.1)
  else t

def writeToStash {L : Layout} (s : State L) (Path : List (List (Block L.bytes))) : State L :=
  (Path.flatten.foldl writeTurn (s, 0)).1

/-! ## Reading a block from the stash -/

/-- The first loop of `OReadFromStash`, over the visible slots: the slots, `Block` and `found`. -/
def readScan (move : Block n → Block n → Bool → Block n) (bid : Nat) (pos : Bid) :
    Bool → Block n → List (Block n) → List (Block n) × Block n × Bool
  | found, blk, [] => ([], blk, found)
  | found, blk, s :: slots =>
    let cond := s.blockID.val == bid
    let s' := { s with pos := OMove pos s.pos (cond && !found) }
    let r := readScan move bid pos (found || cond) (move blk s' (cond && !found)) slots
    (s' :: r.1, r.2)

/-- The block written for an id the stash does not hold: `memset` clears `nRecord` bytes. -/
def zeroBlock (nRecord bid : Nat) (pos : Bid) (s : Block n) : Block n where
  blockID := toBid bid
  pos := pos
  data := fun j => if j.val < nRecord then 0 else s.data j

/-- The loop under `if(!found)` from slot `i` on: the slots, `length_st`, and the block it added. -/
def addMissing (nRecord bid : Nat) (pos : Bid) : Nat → Nat → List (Block n) → List (Block n) × Nat × Option (Block n)
  | _, length_st, [] => ([], length_st, none)
  | i, length_st, s :: slots =>
    if i < length_st then
      if !s.real then (zeroBlock nRecord bid pos s :: slots, length_st, some (zeroBlock nRecord bid pos s))
      else if i == length_st - 1 then
        if MAX_STASH_NUM < length_st + 8 then (s :: slots, length_st, none)
        else
          let r := addMissing nRecord bid pos (i + 1) (length_st + 8) slots
          (s :: r.1, r.2)
      else
        let r := addMissing nRecord bid pos (i + 1) length_st slots
        (s :: r.1, r.2)
    else (s :: slots, length_st, none)

/-- What follows the first loop: with `found`, nothing. -/
def addIfMissing {L : Layout} (s : State L) (bid : Nat) (pos : Bid) (blk : Block L.bytes) (found : Bool) :
    State L × Block L.bytes × Bool :=
  if found then (s, blk, true)
  else
    let r := addMissing L.nRecord bid pos 0 s.length_st s.stash
    ({ s with stash := r.1, length_st := r.2.1 }, r.2.2.getD blk, r.2.2.isSome)

/-- `rand() % nLeaf`, stored as a `bid_t`; `r` is what `rand` returned. -/
def drawLeaf (L : Layout) (r : Int) : Bid := toBid (toSize r % L.nLeaf)

/-- `OReadFromStash` with the move it copies a block by. -/
def readLoop {L : Layout} (move : Block L.bytes → Block L.bytes → Bool → Block L.bytes) (s : State L) (bid : Nat)
    (r : Int) (blk : Block L.bytes) : State L × Block L.bytes × Bool :=
  let pos := drawLeaf L r
  let s := { s with pos_map := Function.update s.pos_map bid pos }
  let t := readScan move bid pos false blk (s.stash.take s.length_st)
  addIfMissing { s with stash := t.1 ++ s.stash.drop s.length_st } bid pos t.2.1 t.2.2

def OReadFromStash {L : Layout} (s : State L) (bid : Nat) (r : Int) (blk : Block L.bytes) :
    State L × Block L.bytes × Bool :=
  readLoop (fun px py cond => OMoveEx px py cond L.sizeBlock) s bid r blk

def OReadFromStash_S {L : Layout} (s : State L) (bid : Nat) (r : Int) (blk : Block L.bytes) :
    State L × Block L.bytes × Bool :=
  readLoop copyIf s bid r blk

def OReadFromStash_F {L : Layout} (s : State L) (bid : Nat) (r : Int) (blk : Block L.bytes) :
    State L × Block L.bytes × Bool :=
  readLoop copyIf s bid r blk

/-- The first loop of `readFromStash`, which returns at the first match. -/
def readFirst (bid : Nat) (pos : Bid) : List (Block n) → List (Block n) × Option (Block n)
  | [] => ([], none)
  | s :: slots =>
    if s.blockID.val == bid then ({ s with pos := pos } :: slots, some { s with pos := pos })
    else
      let r := readFirst bid pos slots
      (s :: r.1, r.2)

def readFromStash {L : Layout} (s : State L) (bid : Nat) (r : Int) (blk : Block L.bytes) :
    State L × Block L.bytes × Bool :=
  let pos := drawLeaf L r
  let s := { s with pos_map := Function.update s.pos_map bid pos }
  let t := readFirst bid pos (s.stash.take s.length_st)
  addIfMissing { s with stash := t.1 ++ s.stash.drop s.length_st } bid pos (t.2.getD blk) t.2.isSome

/-! ## Refilling the path from the stash -/

/-- `(pos_map[flagS]>>(level-i)) == (leaf>>(level-i))` -/
def onPath (level : Nat) (pos_map : Nat → Bid) (leaf i : Nat) (s : Block n) : Bool :=
  (pos_map s.blockID.val).val >>> (level - i) == leaf >>> (level - i)

/-- The inner loop of `ORebuildStash` over the visible slots, for the place `p` of a bucket: the slots and the place. -/
def evictScan (move : Block n → Block n → Bool → Block n) (q : Block n → Bool) :
    Bool → Bool → Block n → List (Block n) → List (Block n) × Block n
  | _, _, p, [] => ([], p)
  | cond, found, p, s :: slots =>
    let cond := OMove (q s) cond s.real
    let p' := move p s (cond && !found)
    let s' := { s with blockID := OMove DUMMY_FLAG s.blockID (cond && !found) }
    let found := OMove true found (cond && !found)
    let cond := OMove false cond (cond && !found)
    let r := evictScan move q cond found p' slots
    (s' :: r.1, r.2)

/-- The inner loop of `ORebuildStash_S` and `ORebuildStash_F`, where a block that was moved resets `cond`. -/
def evictScan_SF (q : Block n → Bool) : Bool → Bool → Block n → List (Block n) → List (Block n) × Block n
  | _, _, p, [] => ([], p)
  | cond, found, p, s :: slots =>
    let cond := if s.real then q s else cond
    if cond && !found then
      let r := evictScan_SF q false true s slots
      (s.erase :: r.1, r.2)
    else
      let r := evictScan_SF q cond found p slots
      (s :: r.1, r.2)

/-- The `while` loop of `rebuildStash` over the visible slots from `k` on: the slots, the place and `k`. -/
def evictCursor (q : Block n → Bool) (p : Block n) : Nat → List (Block n) → List (Block n) × Block n × Nat
  | k, [] => ([], p, k)
  | k, s :: slots =>
    if s.real && q s then (s.erase :: slots, s, k + 1)
    else
      let r := evictCursor q p (k + 1) slots
      (s :: r.1, r.2)

/-- The loop over the places `j` of one bucket, every place with a scan of its own. -/
def fillPlaces (scan : Block n → List (Block n) → List (Block n) × Block n) :
    List (Block n) → List (Block n) → List (Block n) × List (Block n)
  | [], slots => ([], slots)
  | p :: bucket, slots =>
    let r := scan p slots
    let t := fillPlaces scan bucket r.1
    (r.2 :: t.1, t.2)

/-- The loop over the places `j` of one bucket in `rebuildStash`, where `k` goes on. -/
def fillCursor (q : Block n → Bool) : Nat → List (Block n) → List (Block n) → List (Block n) × List (Block n)
  | _, [], slots => ([], slots)
  | k, p :: bucket, slots =>
    let r := evictCursor q p k (slots.drop k)
    let t := fillCursor q r.2.2 bucket (slots.take k ++ r.1)
    (r.2.1 :: t.1, t.2)

/-- The loop over the levels, from the deepest one up; the buckets are those of level `i` and below. -/
def fillLevels (fill : Nat → List (Block n) → List (Block n) → List (Block n) × List (Block n)) :
    Nat → List (List (Block n)) → List (Block n) → List (List (Block n)) × List (Block n)
  | _, [], slots => ([], slots)
  | i, bucket :: Path, slots =>
    let r := fillLevels fill (i + 1) Path slots
    let t := fill i bucket r.2
    (t.1 :: r.1, t.2)

/-- The rebuilt path and stash, for a routine that fills one bucket. -/
def rebuildLoop {L : Layout} (fill : Nat → List (Block L.bytes) → List (Block L.bytes) →
    List (Block L.bytes) × List (Block L.bytes)) (s : State L) (Path : List (List (Block L.bytes))) :
    State L × List (List (Block L.bytes)) :=
  let size_st := s.length_st
  let Path := Path.map fun bucket => bucket.map Block.erase
  let r := fillLevels fill 0 Path (s.stash.take size_st)
  ({ s with stash := r.2 ++ s.stash.drop size_st }, r.1)

def rebuildStash {L : Layout} (s : State L) (Path : List (List (Block L.bytes))) (leaf : Nat) :
    State L × List (List (Block L.bytes)) :=
  rebuildLoop (fun i => fillCursor (onPath L.level s.pos_map leaf i) 0) s Path

def ORebuildStash_S {L : Layout} (s : State L) (Path : List (List (Block L.bytes))) (leaf : Nat) :
    State L × List (List (Block L.bytes)) :=
  rebuildLoop (fun i => fillPlaces (evictScan_SF (onPath L.level s.pos_map leaf i) false false)) s Path

def ORebuildStash_F {L : Layout} (s : State L) (Path : List (List (Block L.bytes))) (leaf : Nat) :
    State L × List (List (Block L.bytes)) :=
  rebuildLoop (fun i => fillPlaces (evictScan_SF (onPath L.level s.pos_map leaf i) false false)) s Path

/-- `greater_SP` -/
def greater_SP (pi pj : Block n) : Bool := decide (pj.blockID < pi.blockID)

def OCompressStash {L : Layout} (s : State L) : State L :=
  let stash := BitonicSorter.sort greater_SP s.stash s.length_st
  let insPos := (stash.take s.length_st).foldl (fun insPos b => OMove (insPos + 1) insPos b.real) 0
  { s with
    stash := stash
    length_st := OMove DEFAULT_STASH_LENGTH insPos (decide (insPos < DEFAULT_STASH_LENGTH)) }

def ORebuildStash {L : Layout} (s : State L) (Path : List (List (Block L.bytes))) (leaf : Nat) :
    State L × List (List (Block L.bytes)) :=
  let move := fun px py cond => OMoveEx px py cond L.sizeBlock
  let r := rebuildLoop (fun i => fillPlaces (evictScan move (onPath L.level s.pos_map leaf i) false false)) s Path
  if L.needComStash then (OCompressStash r.1, r.2) else r

/-! ## One access -/

/-- The block an index lies in. -/
def Layout.block (L : Layout) (index : Nat) : Nat :=
  match L.sketchType with
  | .T => index
  | .C | .L => index / L.nRecord

/-- The position-map loop of `OAccess` and `OAccess_F`, which looks at one entry of each cache line. -/
def lookUpLine (pos_map : Nat → Bid) (nBlock bid : Nat) : Bid :=
  let pace := CACHE_LINE / sizeofBid
  (List.range' 0 ((nBlock + (pace - 1)) / pace) pace).foldl
    (fun leaf i => if i == bid - bid % pace then pos_map bid else leaf) 0

/-- The position-map loop of `OAccess_S`. -/
def lookUpAll (pos_map : Nat → Bid) (nBlock bid : Nat) : Bid :=
  (List.range nBlock).foldl (fun leaf i => if i == bid then pos_map i else leaf) 0

/-- `OAccess`: the state, `Block` and the result. `r` is what `rand` returns. -/
def OAccess {L : Layout} (s : State L) (index : Nat) (r : Int) (blk : Block L.bytes) : State L × Block L.bytes × Bool :=
  let bid := (toBid (L.block index)).val
  let leaf := (lookUpLine s.pos_map L.nBlock bid).val
  let Path := readPath s leaf
  let s := OWriteToStash s Path
  let t := OReadFromStash s bid r blk
  let u := ORebuildStash t.1 Path leaf
  (pushPath u.1 u.2 leaf, t.2)

/-- The byte `*(uint8_t *)(Block+payloadInd+subIdx)`. -/
def byteAt (L : Layout) (blk : Block L.bytes) (subIdx : Nat) : Byte :=
  let i := L.payloadInd - 2 * sizeofBid + subIdx
  if h : i < L.bytes then blk.data ⟨i, h⟩ else 0

/-- `access`; `blk` is what the local array holds on entry. -/
def access {L : Layout} (s : State L) (index : Nat) (r : Int) (blk : Block L.bytes) : State L × Nat :=
  let bid := index / L.nRecord
  let subIdx := index % L.nRecord
  let leaf := (s.pos_map bid).val
  let Path := readPath s leaf
  let s := writeToStash s Path
  let t := readFromStash s (bid % 4294967296) r blk
  let u := rebuildStash t.1 Path leaf
  (pushPath u.1 u.2 leaf, if t.2.2 then (byteAt L t.2.1 subIdx).val else 0)

/-- `OAccess_S`; a block that is not found gives `(uint8_t)-1`. -/
def OAccess_S {L : Layout} (s : State L) (index : Nat) (r : Int) (blk : Block L.bytes) : State L × Byte :=
  let bid := index / L.nRecord
  let subIdx := index % L.nRecord
  let leaf := (lookUpAll s.pos_map L.nBlock bid).val
  let Path := readPath s leaf
  let s := OWriteToStash_S s Path
  let t := OReadFromStash_S s (bid % 4294967296) r blk
  let u := ORebuildStash_S t.1 Path leaf
  (pushPath u.1 u.2 leaf, if t.2.2 then byteAt L t.2.1 subIdx else 255)

def OAccess_F {L : Layout} (s : State L) (index : Nat) (r : Int) (blk : Block L.bytes) : State L × Byte :=
  let bid := index / L.nRecord
  let subIdx := index % L.nRecord
  let leaf := (lookUpLine s.pos_map L.nBlock bid).val
  let Path := readPath s leaf
  let s := OWriteToStash_F s Path
  let t := OReadFromStash_F s (bid % 4294967296) r blk
  let u := ORebuildStash_F t.1 Path leaf
  (pushPath u.1 u.2 leaf, if t.2.2 then byteAt L t.2.1 subIdx else 255)

/-- The counter `OAccessFID` reads of the block `OAccess` delivered in a `'C'` sketch. -/
def OAccess_byte {L : Layout} (s : State L) (index : Nat) (r : Int) (blk : Block L.bytes) : State L × Byte :=
  let t := OAccess s index r blk
  (t.1, if t.2.2 then byteAt L t.2.1 (index % L.nRecord) else 0)

end FOSketch.Oram
