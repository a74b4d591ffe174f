import FOSketch.Heavy.Lookup
import FOSketch.Light.Update
import FOSketch.Secure.Message

/-!
# `OPrepareData`

A message brings the two sketches of an epoch. `OPrepareData` checks and decrypts it, merges the light parts and the heavy
lists, and computes what the responses are made from. The memory it gets from `malloc`, what `rand` returns, the hash
functions and the logarithm of the cardinality estimate are parameters.

The checks come after the first write: a rejected message replaces `CountHeavy` by the heavy list and changes nothing else
(`OPrepareData_rejected_eq`).
-/

namespace FOSketch.Heavy

open Memory Secure

/-! ## What the stages compute -/

/-- A `ShufflePair` in `HeavyChangeList` with its padding. -/
structure PaddedPair where
  dum0 : Bid
  dum1 : U32
  pair : ShufflePair

/-- The two entries of `HeavyChangeList` a pair lies on. -/
def PaddedPair.items (p : PaddedPair) : List Item :=
  [⟨Fin.ofNat 4294967296 (p.pair.index.val + 65536 * p.dum0.val), p.dum1⟩, p.pair.elem]

/-- `HeavyChangeList` when `list` was shuffled in it. -/
def shuffleInto (num range : Nat) (rand : Nat → Int) (list HeavyChangeList : Nat → Item) : Nat → Item :=
  let pairs := (List.range num).map fun i =>
    let first := HeavyChangeList (2 * i)
    (⟨toBid (first.flowID.val / 65536), first.size, toBid (toU32 (rand i) % range), list i⟩ : PaddedPair)
  let greater := fun p q : PaddedPair => greater_SP p.pair q.pair
  let pairs := if testPo2 num then OddEvenMergeSorter.sort greater pairs num else BitonicSorter.sort greater pairs num
  store HeavyChangeList 0 (pairs.flatMap PaddedPair.items)

/-- What `OHeavyChange` leaves in `HeavyChangeList`: the list if it succeeds, else the pairs it shuffled last. -/
def changeListAfter (hash : U32 → U32) (rand : Nat → Int) (mem : Tables) (HeavyHitterList HeavyChangeList : Nat → Item)
    (numHeavy numBucket maxnumBucket maxsizeBucket : Nat) : Nat → Item :=
  match OHeavyChange hash rand mem HeavyHitterList numHeavy numBucket maxnumBucket maxsizeBucket with
  | some (list, _) => store HeavyChangeList 0 list
  | none =>
    let shuffled := shuffleInto numHeavy numBucket rand (fun i => HeavyHitterList (numHeavy + i)) HeavyChangeList
    let pairs := shufflePairs numHeavy numBucket rand fun i => HeavyHitterList (numHeavy + i)
    let t : Table := ⟨mem.BucketTable, mem.tmpBucketTable, fun _ => ⟨0, 0⟩, 0⟩
    match (targets hash numBucket (fun i => rand (numHeavy + i)) pairs).foldlM (fun t p => insertPre t p.1 p.2) t with
    | none => shuffled
    | some _ => shuffleInto numHeavy numBucket (fun i => rand (2 * numHeavy + i)) HeavyHitterList shuffled

def OAdd256 (val : U32) (index : Nat) (pArry : Nat → U32) : Nat → U32 := fun k =>
  if k < 256 ∧ k / 8 = index / 8 then pArry k + OMove val 0 (k % 8 == index % 8) else pArry k

def greater_CDist (pi pj : CDist) : Bool := decide (pj.size < pi.size)

def countRuns : U32 → Bool → List Item → List CDist
  | _, _, [] => []
  | curCount, cond, [x] => [⟨x.size, OMove 1 (curCount + 1) cond⟩]
  | curCount, cond, x :: y :: OrdArry =>
    let curCount := OMove 1 (curCount + 1) cond
    let cond := decide (y.size < x.size)
    ⟨OMove x.size MAX_SIZE cond, curCount⟩ :: countRuns curCount cond (y :: OrdArry)

def OItemCountDist_DESC (OrdArry : List Item) : List CDist :=
  let countDist := countRuns 0 true OrdArry
  if testPo2 OrdArry.length then OddEvenMergeSorter.sort greater_CDist countDist OrdArry.length
  else BitonicSorter.sort greater_CDist countDist OrdArry.length

/-- The swaps that reverse the first half of `HeavyHitterList`. -/
def reverseHalf (HeavyHitterList : Nat → Item) : Nat → Item :=
  (List.range (NUM_HEAVY / 2)).foldl (fun list k =>
    Function.update (Function.update list k (list (NUM_HEAVY - k))) (NUM_HEAVY - k) (list k)) HeavyHitterList

def mergeHeavy (HeavyHitterList : Nat → Item) : Nat → Item :=
  if testPo2 (NUM_HEAVY * 2) then
    store HeavyHitterList 0
      (OddEvenMergeSorter.merge smallerItem (load HeavyHitterList 0 (NUM_HEAVY * 2)) (NUM_HEAVY * 2))
  else
    let list := reverseHalf HeavyHitterList
    store list 0 (BitonicSorter.merge smallerItem (load list 0 (NUM_HEAVY * 2)) (NUM_HEAVY * 2))

/-! ## The routine -/

structure Epoch where
  Cardinality : Nat
  HHCountDistinct : U32
  pDataCUSketch : Option (Nat → Byte)
  pDataStashTable : Option (Nat → Item)
  pStashHeavy : Option (Nat → Item)
  countStash : Nat
  btHash : U32
  stHash : U32
  cusHash : U32
  numHeavyChange : Nat
  HeavyHitterList : Nat → Item
  HeavyChangeList : Nat → Item
  CountHeavy : Nat → CDist
  CountLight : Nat → U32

/-- What `malloc` returns: null or not for the buffer of the sketches, and what the memory holds. -/
structure Mallocs where
  p2Sketch : Option (Nat → Byte)
  light : Nat → Byte
  tables : Tables
  stack : Nat → Block64
  tmpB : Block64
  table : Nat → Item
  stash : Nat → Item

structure Draws where
  btHash : Int
  stHash : Int
  cusHash : Int
  change : Nat → Int
  table : Nat → Int

/-- The code the repository does not contain: OpenSSL, the hash function for a seed, and `-CUSKETCH_MEM * log(ratio)` for a
number of zero counters. -/
structure Outside where
  evp : Evp
  Hash32 : U32 → U32 → U32
  estimate : U32 → Nat

/-- `memcpy((uint8_t *)CountHeavy, (uint8_t *)HeavyHitterList, HEAVY_MEM)` -/
def saveHeavy (g : Epoch) : Epoch :=
  { g with CountHeavy := fun i =>
      if i < NUM_HEAVY then ⟨(g.HeavyHitterList i).flowID, (g.HeavyHitterList i).size⟩ else g.CountHeavy i }

/-- The decrypted sketches, or `none` where the message is rejected. -/
def receive (out : Outside) (m : Mallocs) (pMsgSketch : Message) (pCtx : Ctx) : Option (Nat → Byte) :=
  if pMsgSketch.payload_size ≤ 0 then none
  else
    let payload_size := toInt32 (pMsgSketch.payload_size - GCM_IV_SIZE)
    if payload_size ≠ 2 * (TOTAL_MEM + 2) then none
    else
      match m.p2Sketch with
      | none => none
      | some p2Sketch =>
        let r := unpack_message out.evp pMsgSketch pCtx p2Sketch
        if r.2 ≠ 2 * (TOTAL_MEM + 2) then none else some r.1

/-- Where the heavy list starts in a sketch. -/
def heavyStart : Nat := 2 + CUSKETCH_MEM

/-- The two heavy lists as they are received. -/
def receivedHeavy (p2Sketch : Nat → Byte) (HeavyHitterList : Nat → Item) : Nat → Item := fun i =>
  if i < NUM_HEAVY then readItem p2Sketch (heavyStart + sizeofItem * i)
  else if i < 2 * NUM_HEAVY then readItem p2Sketch (TOTAL_MEM + 2 + heavyStart + sizeofItem * (i - NUM_HEAVY))
  else HeavyHitterList i

/-- The light parts merged by `vpmaxub`. -/
def mergeLight (p2Sketch light : Nat → Byte) : Nat → Byte := fun i =>
  if i < CUSKETCH_MEM then max (p2Sketch (1 + i)) (p2Sketch (TOTAL_MEM + 2 + 1 + i)) else light i

/-- `rand() % (1L<<32)` in a `uint32_t`. -/
def seed (r : Int) : U32 := Fin.ofNat 4294967296 (toU32 r)

def mergedHeavy (p2Sketch : Nat → Byte) (g : Epoch) : Nat → Item := mergeHeavy (receivedHeavy p2Sketch g.HeavyHitterList)

def changeCall (out : Outside) (draws : Draws) (m : Mallocs) (p2Sketch : Nat → Byte) (g : Epoch) : Option (List Item × Nat) :=
  OHeavyChange (out.Hash32 (seed draws.btHash)) draws.change m.tables (mergedHeavy p2Sketch g) NUM_HEAVY BT_BUCKET_NUM
    BT_BUCKET_MAX_NUM BT_BUCKET_MAX_SIZE

def tableCall (out : Outside) (draws : Draws) (m : Mallocs) (p2Sketch : Nat → Byte) (g : Epoch) :
    (Nat → Item) × STable × Bool :=
  OBuildSTable (out.Hash32 (seed draws.stHash)) draws.table m.table m.stash (mergedHeavy p2Sketch g)

/-- What follows the checks. -/
def evaluate (out : Outside) (draws : Draws) (m : Mallocs) (p2Sketch : Nat → Byte) (g : Epoch) : Epoch :=
  let pDataCUSketch := mergeLight p2Sketch m.light
  let HeavyHitterList := mergedHeavy p2Sketch g
  let change := changeCall out draws m p2Sketch g
  let HeavyChangeList := changeListAfter (out.Hash32 (seed draws.btHash)) draws.change m.tables HeavyHitterList
    g.HeavyChangeList NUM_HEAVY BT_BUCKET_NUM BT_BUCKET_MAX_NUM BT_BUCKET_MAX_SIZE
  let pDataCUSketch := OUpdateCUSketch_BEx (out.Hash32 (seed draws.cusHash)) m.stack m.tmpB pDataCUSketch CUSKETCH_MEM
    (load HeavyHitterList NUM_HEAVY NUM_HEAVY)
  let CountLight := (List.range CUSKETCH_MEM).foldl (fun pArry i => OAdd256 1 (pDataCUSketch i).val pArry)
    fun k => if k < 256 then 0 else g.CountLight k
  let dist := OItemCountDist_DESC (load HeavyHitterList 0 NUM_HEAVY)
  let HHCountDistinct := (load HeavyHitterList 0 NUM_HEAVY).foldl
    (fun n x => n + OMove 1 0 (x.flowID != 0 && x.flowID != DUMMY_FLOW)) 0
  let t := tableCall out draws m p2Sketch g
  { Cardinality := out.estimate (CountLight 0) + HHCountDistinct.val
    HHCountDistinct := HHCountDistinct
    pDataCUSketch := some pDataCUSketch
    pDataStashTable := some t.2.1.pDataStashTable
    pStashHeavy := some t.2.1.pStashHeavy
    countStash := t.2.1.countStash
    btHash := seed draws.btHash
    stHash := seed draws.stHash
    cusHash := seed draws.cusHash
    numHeavyChange := (change.map Prod.snd).getD 0
    HeavyHitterList := t.1
    HeavyChangeList := HeavyChangeList
    CountHeavy := fun i => dist.getD i (g.CountHeavy i)
    CountLight := CountLight }

/-- `OPrepareData` with its result. -/
def OPrepareData (out : Outside) (draws : Draws) (m : Mallocs) (pMsgSketch : Message) (pCtx : Ctx) (g : Epoch) : Epoch × Bool :=
  let g := saveHeavy g
  match receive out m pMsgSketch pCtx with
  | none => (g, false)
  | some p2Sketch => (evaluate out draws m p2Sketch g, true)

/-- The first `topK` entries of the list. -/
def OResponseHeavyHitter (g : Epoch) (topK : Nat) : List Item :=
  let topK := if NUM_HEAVY < topK then NUM_HEAVY else topK
  (List.range topK).map g.HeavyHitterList

/-! ## Rejected messages -/

section Rejected
variable {out : Outside} {draws : Draws} {m : Mallocs} {pMsgSketch : Message} {pCtx : Ctx} {g : Epoch}

theorem OPrepareData_false_iff :
    (OPrepareData out draws m pMsgSketch pCtx g).2 = false ↔ receive out m pMsgSketch pCtx = none := by
  unfold OPrepareData
  cases receive out m pMsgSketch pCtx with
  | none => simp
  | some p2Sketch => simp

/-- A rejected message leaves the state with the heavy list saved in `CountHeavy`. -/
theorem OPrepareData_rejected_eq (h : (OPrepareData out draws m pMsgSketch pCtx g).2 = false) :
    (OPrepareData out draws m pMsgSketch pCtx g).1 = saveHeavy g := by
  unfold OPrepareData
  rw [OPrepareData_false_iff.mp h]

/-- `CountHeavy` holds the bytes of the first half of `HeavyHitterList`. -/
def HeavySaved (g : Epoch) : Prop :=
  ∀ i < NUM_HEAVY, g.CountHeavy i = ⟨(g.HeavyHitterList i).flowID, (g.HeavyHitterList i).size⟩

theorem saveHeavy_eq_of_count (h : (saveHeavy g).CountHeavy = g.CountHeavy) : saveHeavy g = g := by
  have heta : saveHeavy g = { g with CountHeavy := (saveHeavy g).CountHeavy } := rfl
  rw [heta, h]

theorem saveHeavy_eq_iff : saveHeavy g = g ↔ HeavySaved g := by
  constructor
  · intro h i hi
    have hcount := congrFun (congrArg Epoch.CountHeavy h) i
    rw [← hcount]
    exact if_pos hi
  · intro h
    have hcount : (saveHeavy g).CountHeavy = g.CountHeavy := by
      funext i
      unfold saveHeavy
      dsimp only
      split_ifs with hi
      · exact (h i hi).symm
      · rfl
    exact saveHeavy_eq_of_count hcount

/-- The state responses are served from. -/
structure Served where
  HeavyHitterList : Nat → Item
  HeavyChangeList : Nat → Item
  CountHeavy : Nat → CDist
  CountLight : Nat → U32
  Cardinality : Nat
  pDataCUSketch : Option (Nat → Byte)
  pDataStashTable : Option (Nat → Item)
  pStashHeavy : Option (Nat → Item)
  countStash : Nat

def Epoch.served (g : Epoch) : Served :=
  ⟨g.HeavyHitterList, g.HeavyChangeList, g.CountHeavy, g.CountLight, g.Cardinality, g.pDataCUSketch, g.pDataStashTable,
    g.pStashHeavy, g.countStash⟩

/-- **A rejected message keeps the served state** exactly if `CountHeavy` held the heavy list before. -/
theorem OPrepareData_rejected_iff (h : (OPrepareData out draws m pMsgSketch pCtx g).2 = false) :
    (OPrepareData out draws m pMsgSketch pCtx g).1.served = g.served ↔ HeavySaved g := by
  rw [OPrepareData_rejected_eq h, ← saveHeavy_eq_iff]
  constructor
  · intro he
    exact saveHeavy_eq_of_count (congrArg Served.CountHeavy he)
  · exact fun he => congrArg Epoch.served he

end Rejected

/-! ### The empty message -/

def noOutside : Outside := ⟨aesGcm, fun _ f => f, fun _ => 0⟩

def noMallocs : Mallocs where
  p2Sketch := some fun _ => 0
  light := fun _ => 0
  tables := ⟨noItems, noItems⟩
  stack := fun _ => ⟨0, 0, fun _ => 0⟩
  tmpB := ⟨0, 0, fun _ => 0⟩
  table := noItems
  stash := noItems

def noDraws : Draws := ⟨0, 0, 0, fun _ => 0, fun _ => 0⟩

def emptyMessage : Message := ⟨.STAT, 0, [], fun _ => 0⟩

def epochOf (heavy : Nat → Item) (dist : Nat → CDist) : Epoch where
  Cardinality := 0
  HHCountDistinct := 0
  pDataCUSketch := none
  pDataStashTable := none
  pStashHeavy := none
  countStash := 0
  btHash := 0
  stHash := 0
  cusHash := 0
  numHeavyChange := 0
  HeavyHitterList := heavy
  HeavyChangeList := noItems
  CountHeavy := dist
  CountLight := fun _ => 0

/-- As long as the list is saved, a rejected message changes nothing. -/
theorem OPrepareData_rejected_saved :
    (OPrepareData noOutside noDraws noMallocs emptyMessage zeroCtx
      (epochOf (fun i => ⟨Fin.ofNat _ i, 7⟩) fun i => ⟨Fin.ofNat _ i, 7⟩)).1.served =
        (epochOf (fun i => ⟨Fin.ofNat _ i, 7⟩) fun i => ⟨Fin.ofNat _ i, 7⟩).served :=
  (OPrepareData_rejected_iff rfl).mpr fun _ _ => rfl

/-- Later it replaces the distribution of the sizes by the heavy list. -/
theorem OPrepareData_forgets :
    (OPrepareData noOutside noDraws noMallocs emptyMessage zeroCtx (epochOf (fun _ => ⟨1, 1⟩) fun _ => ⟨1, 7⟩)).2 = false ∧
      (OPrepareData noOutside noDraws noMallocs emptyMessage zeroCtx (epochOf (fun _ => ⟨1, 1⟩) fun _ => ⟨1, 7⟩)).1.served ≠
        (epochOf (fun _ => ⟨1, 1⟩) fun _ => ⟨1, 7⟩).served := by
  refine ⟨rfl, fun h => ?_⟩
  have hcount : (⟨1, 1⟩ : CDist) = ⟨1, 7⟩ := congrFun (congrArg Served.CountHeavy h) 0
  exact absurd hcount (by decide)

end FOSketch.Heavy
