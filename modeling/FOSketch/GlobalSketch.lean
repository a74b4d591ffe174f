import FOSketch.Heavy.Response
import FOSketch.Light.MergeOrder
import FOSketch.Oram.Filled

/-!
# A burst of look-ups

Command `2` of `ecall_fos_test` fills one sketch from the light part that `OPrepareData` leaves and one from the flow table,
and command `4` sends each of them a burst of look-ups. As long as no bucket overflowed on filling and the stash is not
overrun, every answer is the one of the data itself: for the light part the counter of the flow, for the table the size of
the flow's rank unless a place that was never written says otherwise (`burst_answers`).
-/

namespace FOSketch.GlobalSketch

open Memory Heavy Oram Light

variable {L : Layout}

/-! ## The routine -/

def REPEAT_BASE : Nat := 10000

/-- The index `OAccessFID` makes of a flow. -/
def indexOf (L : Layout) (stHash cusHash : U32 → U32) (flowID : U32) : Nat :=
  match L.sketchType with
  | .T => (stHash flowID).val % ST_BUCKET_NUM
  | .C | .L => (cusHash flowID).val % CUSKETCH_MEM

/-- One turn: the flow that `sgx_read_rand` returns, what `rand` returns, and what `Block` holds on entry. -/
structure Lookup (L : Layout) where
  flowID : U32
  rand : Int
  buffer : Block L.bytes

/-- The turns of the loop, with what `OAccessFID` returns. -/
def lookUps (stHash cusHash : U32 → U32) (t : STable) : State L → List (Lookup L) → State L × List U32
  | s, [] => (s, [])
  | s, q :: qs =>
    let a := OAccessFID stHash cusHash t s q.flowID q.rand q.buffer
    let r := lookUps stHash cusHash t a.1 qs
    (r.1, a.2 :: r.2)

/-- `OBurstAccessFID`; the product of `repeats` and `REPEAT_BASE` is one of `uint32_t`. -/
def OBurstAccessFID (stHash cusHash : U32 → U32) (t : STable) (s : State L) (repeats : U32) (turn : Nat → Lookup L) :
    State L × List U32 :=
  let global_repeat := repeats.val * REPEAT_BASE % 4294967296
  lookUps stHash cusHash t s ((List.range global_repeat).map turn)

/-! ## A sketch that serves its source -/

/-- Every block is in its place, with its slice of the source. -/
structure Serves (m : Oram.Memory L) (pSource : Nat → Byte) (s : State L) : Prop extends WellFormed s where
  payload_eq_source : ∀ b < L.nBlock, s.payload b = some (skBlock m pSource b 0).data

/-- The state of `Init_OCU` does if no bucket overflowed. -/
theorem Serves.of_init (m : Oram.Memory L) (pSource : Nat → Byte) {rand : Nat → Int} (hlevel : L.level = Nat.log 2 L.nBlock)
    (hm : 0 < L.sizeBucket) (h : NoOverflow L rand) : Serves m pSource (Init_OCU L m pSource rand).1 := by
  have hwf := Init_OCU_wellFormed m pSource rand hlevel hm h
  refine ⟨hwf, fun b hb => ?_⟩
  have hcount := count_of_noOverflow m pSource rand hlevel hm h hb
  obtain ⟨c, hc, hid⟩ := exists_of_count_id (Nat.lt_of_lt_of_eq Nat.one_pos hcount.symm)
  obtain ⟨bucket, hbucket, hmem⟩ := List.mem_flatten.mp hc
  obtain ⟨k, hk⟩ := List.mem_iff_getElem?.mp hbucket
  have hr := real_of_lt hwf.toPlaced (show c.blockID.val < L.nBlock by omega)
  obtain ⟨b', hb', hmade, -⟩ := filledTree_stored m pSource rand hlevel hm hk hmem hr
  obtain rfl : b' = b := by rw [← hid, hmade, made_id m pSource rand hlevel hb']
  have htree : (Init_OCU L m pSource rand).1.OblivSK = filledTree m pSource rand := by
    rw [Init_OCU_eq m pSource rand hlevel]
  have hcopy : c ∈ (Init_OCU L m pSource rand).1.copies :=
    Slots.mem_occupants.mpr ⟨List.mem_append_left _ (htree ▸ hc), hr⟩
  have hpayload := hwf.toPlaced.payload_eq hcopy (by omega)
  rw [hid, hmade] at hpayload
  exact hpayload

theorem Serves.access {m : Oram.Memory L} {pSource : Nat → Byte} {s : State L} (h : Serves m pSource s) {index : Nat}
    (hb : L.block index < L.nBlock) (hload : s.load (L.block index) ≤ 100) (r : Int) (blk : Block L.bytes) :
    Serves m pSource (OAccess s index r blk).1 ∧
      ∃ pos, (OAccess s index r blk).2 = (skBlock m pSource (L.block index) pos, true) := by
  obtain ⟨hwf, hkeep, hfound, hid, hdata⟩ := run_spec h.toWellFormed ⟨index, r, blk⟩ hb hload
  refine ⟨⟨hwf, fun b hlt => (hkeep b hlt).trans (h.payload_eq_source b hlt)⟩, ?_⟩
  have hlt := h.toPlaced.lt_dummy hb
  have hblock : (OAccess s index r blk).2.1.blockID = toBid (L.block index) := by
    refine Fin.ext (hid.trans ?_)
    rw [toBid_val, Nat.mod_eq_of_lt (by omega)]
  have hbytes : (OAccess s index r blk).2.1.data = (skBlock m pSource (L.block index) 0).data :=
    (Option.some.inj (hdata.symm.trans (h.payload_eq_source _ hb)))
  refine ⟨(OAccess s index r blk).2.1.pos, Prod.ext ?_ hfound⟩
  have heta : (OAccess s index r blk).2.1 = ⟨(OAccess s index r blk).2.1.blockID, (OAccess s index r blk).2.1.pos,
    (OAccess s index r blk).2.1.data⟩ := rfl
  rw [heta, hblock, hbytes]
  rfl

theorem OAccessFID_fst (stHash cusHash : U32 → U32) (t : STable) (s : State L) (f : U32) (r : Int) (blk : Block L.bytes) :
    (OAccessFID stHash cusHash t s f r blk).1 = (OAccess s (indexOf L stHash cusHash f) r blk).1 := by
  unfold OAccessFID indexOf
  cases L.sketchType <;> rfl

def StashFits (stHash cusHash : U32 → U32) (t : STable) : State L → List (Lookup L) → Prop
  | _, [] => True
  | s, q :: qs => s.load (L.block (indexOf L stHash cusHash q.flowID)) ≤ 100 ∧
      StashFits stHash cusHash t (OAccessFID stHash cusHash t s q.flowID q.rand q.buffer).1 qs

section Answers
variable {stHash cusHash : U32 → U32} {t : STable} {m : Oram.Memory L} {pSource : Nat → Byte} {answer : U32 → U32}

/-- If the block of the source gives the answer, every look-up does. -/
theorem Serves.lookUps (hblock : ∀ f, L.block (indexOf L stHash cusHash f) < L.nBlock)
    (hanswer : ∀ (s : State L) (f : U32) (r : Int) (blk : Block L.bytes) (pos : Bid),
      (OAccess s (indexOf L stHash cusHash f) r blk).2 =
        (skBlock m pSource (L.block (indexOf L stHash cusHash f)) pos, true) →
      (OAccessFID stHash cusHash t s f r blk).2 = answer f)
    {s : State L} (h : Serves m pSource s) {qs : List (Lookup L)} (hfits : StashFits stHash cusHash t s qs) :
    Serves m pSource (GlobalSketch.lookUps stHash cusHash t s qs).1 ∧
      (GlobalSketch.lookUps stHash cusHash t s qs).2 = qs.map fun q => answer q.flowID := by
  induction qs generalizing s with
  | nil => exact ⟨h, rfl⟩
  | cons q qs ih =>
    obtain ⟨hload, hrest⟩ := hfits
    obtain ⟨hserves, pos, hdelivered⟩ := h.access (hblock q.flowID) hload q.rand q.buffer
    rw [← OAccessFID_fst stHash cusHash t] at hserves
    obtain ⟨hlast, hanswers⟩ := ih hserves hrest
    refine ⟨hlast, ?_⟩
    rw [List.map_cons, ← hanswers, ← hanswer s q.flowID q.rand q.buffer pos hdelivered]
    rfl

theorem lookUps_append (stHash cusHash : U32 → U32) (t : STable) (s : State L) (qs rs : List (Lookup L)) :
    (lookUps stHash cusHash t s (qs ++ rs)).2 =
      (lookUps stHash cusHash t s qs).2 ++ (lookUps stHash cusHash t (lookUps stHash cusHash t s qs).1 rs).2 := by
  induction qs generalizing s with
  | nil => rfl
  | cons q qs ih => exact congrArg (_ :: ·) (ih _)

theorem length_lookUps (stHash cusHash : U32 → U32) (t : STable) (s : State L) (qs : List (Lookup L)) :
    (lookUps stHash cusHash t s qs).2.length = qs.length := by
  induction qs generalizing s with
  | nil => rfl
  | cons q qs ih => exact congrArg (· + 1) (ih _)

/-- The first answers depend on the first turns only. -/
theorem take_lookUps (stHash cusHash : U32 → U32) (t : STable) (s : State L) (qs : List (Lookup L)) (n : Nat) :
    (lookUps stHash cusHash t s qs).2.take n = (lookUps stHash cusHash t s (qs.take n)).2 := by
  conv_lhs => rw [← List.take_append_drop n qs, lookUps_append]
  by_cases hn : n ≤ qs.length
  · exact List.take_left' (by rw [length_lookUps, List.length_take, min_eq_left hn])
  · rw [List.drop_eq_nil_of_le (by omega), lookUps, List.append_nil]
    exact List.take_of_length_le (by rw [length_lookUps, List.length_take]; omega)

end Answers

/-! ## The two sketches -/

/-- The sketch the constructor makes of the light part. -/
def lightLayout (needComStash : Bool) : Layout where
  sketchType := .C
  sizeBlock := SIZE_BLOCK
  sizeBucket := SIZE_BUCKET
  nBlock := 7680
  level := 12
  needComStash := needComStash
  sizeBlock_eq := sizeBlock_64
  level_lt := level_12

theorem layoutOf_light (needComStash : Bool) :
    layoutOf .C CUSKETCH_MEM SIZE_BLOCK SIZE_BUCKET needComStash sizeBlock_64 = some (lightLayout needComStash) := by
  rfl

theorem log_nBlock_light : Nat.log 2 7680 = 12 := by norm_num

theorem nRecord_light (needComStash : Bool) : (lightLayout needComStash).nRecord = 60 := by
  simp [Layout.nRecord, Layout.elemSize, lightLayout, SIZE_BLOCK, sizeofBid]

/-- What a sketch is made of and what it is asked. -/
structure Burst (L : Layout) where
  memory : Oram.Memory L
  draws : Nat → Int
  repeats : U32
  turn : Nat → Lookup L

def Burst.answers (b : Burst L) (stHash cusHash : U32 → U32) (t : STable) (pSource : Nat → Byte) : List U32 :=
  (OBurstAccessFID stHash cusHash t (Init_OCU L b.memory pSource b.draws).1 b.repeats b.turn).2

def Burst.turns (b : Burst L) : List (Lookup L) :=
  (List.range (b.repeats.val * REPEAT_BASE % 4294967296)).map b.turn

/-- No bucket overflows, and in the first `n` turns the stash is not overrun. -/
def Burst.Fits (b : Burst L) (stHash cusHash : U32 → U32) (t : STable) (pSource : Nat → Byte) (n : Nat) : Prop :=
  NoOverflow L b.draws ∧ StashFits stHash cusHash t (Init_OCU L b.memory pSource b.draws).1 (b.turns.take n)

section Sketches
variable {needComStash : Bool} {stHash cusHash : U32 → U32}

theorem byteAt_skBlock (m : Oram.Memory (lightLayout needComStash)) (pSource : Nat → Byte) (index : Nat) (pos : Bid) :
    byteAt (lightLayout needComStash) (skBlock m pSource (index / 60) pos) (index % 60) = pSource index := by
  have hbytes : (lightLayout needComStash).bytes = 60 := rfl
  have hpay : (lightLayout needComStash).payloadInd - 2 * sizeofBid = 0 := rfl
  have hrec : (lightLayout needComStash).nRecord * (lightLayout needComStash).elemSize = 60 := by
    rw [nRecord_light]
    rfl
  unfold byteAt
  rw [hpay, dif_pos (show 0 + index % 60 < _ by rw [hbytes]; omega)]
  unfold skBlock
  dsimp only
  rw [hpay, if_neg (by omega), Nat.mul_assoc, hrec]
  congr 1
  omega

theorem block_light (index : Nat) : (lightLayout needComStash).block index = index / 60 := by
  rw [← nRecord_light needComStash]
  rfl

theorem block_lt_light (stHash cusHash : U32 → U32) (f : U32) :
    (lightLayout needComStash).block (indexOf (lightLayout needComStash) stHash cusHash f) <
      (lightLayout needComStash).nBlock := by
  have hlt := Nat.mod_lt (cusHash f).val (show 0 < CUSKETCH_MEM by decide)
  have hmem : CUSKETCH_MEM = 60 * 7680 := rfl
  have hn : (lightLayout needComStash).nBlock = 7680 := rfl
  have hindex : indexOf (lightLayout needComStash) stHash cusHash f = (cusHash f).val % CUSKETCH_MEM := rfl
  rw [hindex, block_light, hn]
  omega

theorem block_lt_table (stHash cusHash : U32 → U32) (f : U32) :
    (tableLayout needComStash).block (indexOf (tableLayout needComStash) stHash cusHash f) <
      (tableLayout needComStash).nBlock := by
  have hbuckets : 0 < ST_BUCKET_NUM := by decide
  exact Nat.mod_lt (stHash f).val hbuckets

/-- **The light part**: each answer is the counter of the flow. -/
theorem answers_light (b : Burst (lightLayout needComStash)) (t : STable) (light : Nat → Byte) {n : Nat}
    (h : b.Fits stHash cusHash t light n) :
    (b.answers stHash cusHash t light).take n = (b.turns.take n).map fun q =>
      Fin.ofNat 4294967296 (light ((cusHash q.flowID).val % CUSKETCH_MEM)).val := by
  have hplaces : 0 < SIZE_BUCKET := by decide
  have hserves := Serves.of_init b.memory light log_nBlock_light.symm hplaces h.1
  have hindex : ∀ f, indexOf (lightLayout needComStash) stHash cusHash f = (cusHash f).val % CUSKETCH_MEM := fun _ => rfl
  have hanswer : ∀ (s : State (lightLayout needComStash)) (f : U32) (r : Int) (blk) (pos : Bid),
      (OAccess s (indexOf (lightLayout needComStash) stHash cusHash f) r blk).2 = (skBlock b.memory light
        ((lightLayout needComStash).block (indexOf (lightLayout needComStash) stHash cusHash f)) pos, true) →
      (OAccessFID stHash cusHash t s f r blk).2 =
        Fin.ofNat 4294967296 (light ((cusHash f).val % CUSKETCH_MEM)).val := by
    intro s f r blk pos hdelivered
    rw [hindex, block_light] at hdelivered
    have hdef : (OAccessFID stHash cusHash t s f r blk).2 =
        if (OAccess s ((cusHash f).val % CUSKETCH_MEM) r blk).2.2 then Fin.ofNat 4294967296
          (byteAt (lightLayout needComStash) (OAccess s ((cusHash f).val % CUSKETCH_MEM) r blk).2.1
            ((cusHash f).val % CUSKETCH_MEM % (lightLayout needComStash).nRecord)).val else 0 := rfl
    rw [hdef, hdelivered, if_pos rfl, nRecord_light, byteAt_skBlock]
  exact (take_lookUps stHash cusHash t _ _ n).trans (hserves.lookUps (block_lt_light stHash cusHash) hanswer h.2).2

/-- **The flow table**: each answer is the recorded size, and then what the unwritten places of the bucket say. -/
theorem answers_table {rand : Nat → Int} {table stash HeavyHitterList HeavyHitterList' : Nat → Item} {t : STable}
    (ht : OBuildSTable stHash rand table stash HeavyHitterList = (HeavyHitterList', t, true))
    (b : Burst (tableLayout needComStash)) {n : Nat} (h : b.Fits stHash cusHash t (itemBytes t.pDataStashTable) n) :
    (b.answers stHash cusHash t (itemBytes t.pDataStashTable)).take n = (b.turns.take n).map fun q =>
      scanSizes q.flowID (recorded HeavyHitterList' q.flowID) (stalePlaces stHash table q.flowID) := by
  have hlevel : (tableLayout needComStash).level = Nat.log 2 (tableLayout needComStash).nBlock :=
    (Nat.log_pow (by decide) 12).symm
  have hplaces : 0 < SIZE_BUCKET := by decide
  have hserves := Serves.of_init b.memory (itemBytes t.pDataStashTable) hlevel hplaces h.1
  have hanswer : ∀ (s : State (tableLayout needComStash)) (f : U32) (r : Int) (blk) (pos : Bid),
      (OAccess s (indexOf (tableLayout needComStash) stHash cusHash f) r blk).2 =
        (skBlock b.memory (itemBytes t.pDataStashTable)
          ((tableLayout needComStash).block (indexOf (tableLayout needComStash) stHash cusHash f)) pos, true) →
      (OAccessFID stHash cusHash t s f r blk).2 =
        scanSizes f (recorded HeavyHitterList' f) (stalePlaces stHash table f) :=
    fun s f r blk pos hdelivered => OAccessFID_delivered ht b.memory cusHash s f r blk pos hdelivered
  exact (take_lookUps stHash cusHash t _ _ n).trans (hserves.lookUps (block_lt_table stHash cusHash) hanswer h.2).2

end Sketches

/-! ## After an accepted message -/

/-- What the sketches are filled from. -/
def sources (e : Epoch) : Option ((Nat → Byte) × STable) := do
  let light ← e.pDataCUSketch
  let table ← e.pDataStashTable
  let stash ← e.pStashHeavy
  some (light, ⟨table, stash, e.countStash⟩)

/-- The flows that are not among the largest `NUM_HEAVY`. -/
def lower (p2Sketch : Nat → Byte) : List Item := (merged p2Sketch).drop NUM_HEAVY

/-- The larger of the two received counters, raised by the lower flows that are hashed to it. -/
def counter (cusHash : U32 → U32) (p2Sketch : Nat → Byte) (c : Nat) : Byte :=
  max (max (p2Sketch (1 + c)) (p2Sketch (TOTAL_MEM + 2 + 1 + c))) (bestOffer cusHash CUSKETCH_MEM (lower p2Sketch) c)

/-- The size of a rank; `0` for an id that is none. -/
def rankSize (p2Sketch : Nat → Byte) (f : U32) : U32 :=
  if 0 < f.val ∧ f.val ≤ NUM_HEAVY then (rankItem (received p2Sketch) (f.val - 1)).size else 0

section Accepted
variable {out : Outside} {draws : Draws} {m : Mallocs} {pMsgSketch : Secure.Message} {pCtx : Secure.Ctx} {g : Epoch}
  {p2Sketch : Nat → Byte}

theorem load_lower (p2Sketch : Nat → Byte) (g : Epoch) :
    load (mergedHeavy p2Sketch g) NUM_HEAVY NUM_HEAVY = lower p2Sketch := by
  have hsplit := load_add (mergedHeavy p2Sketch g) 0 NUM_HEAVY NUM_HEAVY
  rw [← Nat.mul_two, load_mergedHeavy, Nat.zero_add] at hsplit
  rw [lower, hsplit, List.drop_left' (length_load _ _ _)]

theorem light_eq {cusHash : U32 → U32} (h : MergeInOrder cusHash 7680 ((lower p2Sketch).map Item.flowID)) (m : Mallocs)
    (g : Epoch) {c : Nat} (hc : c < CUSKETCH_MEM) :
    OUpdateCUSketch_BEx cusHash m.stack m.tmpB (mergeLight p2Sketch m.light) CUSKETCH_MEM
      (load (mergedHeavy p2Sketch g) NUM_HEAVY NUM_HEAVY) c = counter cusHash p2Sketch c := by
  have hlen : (lower p2Sketch).length ≤ 2 ^ 30 := by
    rw [← load_lower p2Sketch g, length_load]
    decide
  have hpo2 : testPo2 7680 = false := by decide +kernel
  have hn : (7680 : Nat) ≤ 65535 := by decide
  have hmem : CUSKETCH_MEM = 60 * 7680 := rfl
  have hmerged := (mergedBlocks_pairwise_iff cusHash m.stack m.tmpB (mergeLight p2Sketch m.light) (Nat.succ_pos 7679) hn hlen
    hpo2).mpr h
  have hplain := OUpdateCUSketch_BEx_of_merged cusHash m.stack m.tmpB (mergeLight p2Sketch m.light) (Nat.succ_pos 7679) hn
    hlen hmerged
  rw [load_lower, hmem, hplain, UpdateCUSketch_NO_eq, counterMax_eq, counter, hmem, mergeLight, if_pos hc]

/-- The light part that `evaluate` leaves. -/
def lightAfter (out : Outside) (draws : Draws) (m : Mallocs) (p2Sketch : Nat → Byte) (g : Epoch) : Nat → Byte :=
  OUpdateCUSketch_BEx (out.Hash32 (seed draws.cusHash)) m.stack m.tmpB (mergeLight p2Sketch m.light) CUSKETCH_MEM
    (load (mergedHeavy p2Sketch g) NUM_HEAVY NUM_HEAVY)

theorem sources_evaluate {g : Epoch} {t : (Nat → Item) × STable × Bool} (h : tableCall out draws m p2Sketch g = t) :
    sources (evaluate out draws m p2Sketch g) = some (lightAfter out draws m p2Sketch g, t.2.1) := by
  simp only [sources, evaluate, lightAfter, h]
  rfl

theorem recorded_ranks (hp : receive out m pMsgSketch pCtx = some p2Sketch) (hs : ListsSorted p2Sketch) (f : U32) :
    recorded (renumber (mergedHeavy p2Sketch (saveHeavy g))) f = rankSize p2Sketch f := by
  have hlist : OResponseHeavyHitter (OPrepareData out noDraws m pMsgSketch pCtx g).1 NUM_HEAVY =
      (List.range NUM_HEAVY).map (rankItem (received p2Sketch)) := OResponseHeavyHitter_eq hp hs le_rfl
  rw [OPrepareData_accepted hp, OResponseHeavyHitter, HeavyHitterList_evaluate, if_neg (lt_irrefl _),
    List.map_inj_left] at hlist
  unfold rankSize
  split_ifs with hf
  · have hi : f.val - 1 < NUM_HEAVY := by omega
    have hrank := hlist _ (List.mem_range.mpr hi)
    have hflow : (renumber (mergedHeavy p2Sketch (saveHeavy g)) (f.val - 1)).flowID = f := by
      rw [hrank]
      refine Fin.ext (Eq.trans (Nat.mod_eq_of_lt ?_) ?_) <;> omega
    have hmem : renumber (mergedHeavy p2Sketch (saveHeavy g)) (f.val - 1) ∈
        curList (renumber (mergedHeavy p2Sketch (saveHeavy g))) NUM_HEAVY := List.mem_map_of_mem (List.mem_range.mpr hi)
    rw [← hrank, ← recorded_of_mem hmem, hflow]
  · refine recorded_of_absent fun x hx he => hf ?_
    obtain ⟨i, hi, rfl⟩ := List.mem_map.mp hx
    have hval := flowID_renumber (mergedHeavy p2Sketch (saveHeavy g)) (List.mem_range.mp hi)
    have hlt := List.mem_range.mp hi
    rw [← he]
    omega

/-- **The burst** after an accepted message: as long as the stash of a sketch is not overrun, its answers are those of the
epoch. In the light part a flow has its counter, which is the larger of the two received ones, raised by the lower flows,
if these were put in order; in the table it has the size of its rank, or what an unwritten place of its bucket says. -/
theorem burst_answers (hp : receive out m pMsgSketch pCtx = some p2Sketch) (hs : ListsSorted p2Sketch)
    (hfit : stOverflow (out.Hash32 (seed draws.stHash)) ≤ ST_STASH_NUM) {light : Nat → Byte} {t : STable}
    (he : sources (OPrepareData out draws m pMsgSketch pCtx g).1 = some (light, t)) {needComStash : Bool}
    (C : Burst (lightLayout needComStash)) (T : Burst (tableLayout needComStash)) {n k : Nat}
    (hC : C.Fits (out.Hash32 (seed draws.stHash)) (out.Hash32 (seed draws.cusHash)) t light n)
    (hT : T.Fits (out.Hash32 (seed draws.stHash)) (out.Hash32 (seed draws.cusHash)) t (itemBytes t.pDataStashTable) k) :
    (C.answers (out.Hash32 (seed draws.stHash)) (out.Hash32 (seed draws.cusHash)) t light).take n =
        (C.turns.take n).map (fun q =>
          Fin.ofNat 4294967296 (light ((out.Hash32 (seed draws.cusHash) q.flowID).val % CUSKETCH_MEM)).val) ∧
      (MergeInOrder (out.Hash32 (seed draws.cusHash)) 7680 ((lower p2Sketch).map Item.flowID) →
        ∀ c < CUSKETCH_MEM, light c = counter (out.Hash32 (seed draws.cusHash)) p2Sketch c) ∧
      (T.answers (out.Hash32 (seed draws.stHash)) (out.Hash32 (seed draws.cusHash)) t (itemBytes t.pDataStashTable)).take k =
        (T.turns.take k).map (fun q => scanSizes q.flowID (rankSize p2Sketch q.flowID)
          (stalePlaces (out.Hash32 (seed draws.stHash)) m.table q.flowID)) := by
  obtain ⟨⟨list, t', ok⟩, hcall⟩ : ∃ x, tableCall out draws m p2Sketch (saveHeavy g) = x := ⟨_, rfl⟩
  rw [OPrepareData_accepted hp, sources_evaluate hcall, Option.some.injEq, Prod.mk.injEq] at he
  obtain ⟨rfl, rfl⟩ := he
  have hok : ok = true := by
    have hiff : (tableCall out draws m p2Sketch (saveHeavy g)).2.2 = true ↔ _ := tableCall_true_iff
    rw [← hiff, hcall] at hfit
    exact hfit
  have hlist : list = renumber (mergedHeavy p2Sketch (saveHeavy g)) := by
    rw [tableCall, OBuildSTable_eq, Prod.mk.injEq] at hcall
    exact hcall.1.symm
  rw [hok, hlist, tableCall] at hcall
  refine ⟨answers_light C _ _ hC, fun horder c hc => light_eq horder m _ hc, ?_⟩
  rw [answers_table hcall T hT]
  simp only [recorded_ranks hp hs]

end Accepted

/-! ## Two sketches without overflow -/

/-- Draws that send the blocks of a slice to different buckets of its level. -/
def spread (j : Nat) : Int :=
  if j < 4096 then (j : Nat) else if j < 6144 then ((j - 4096) * 2 : Nat) else if j < 7168 then ((j - 6144) * 4 : Nat)
  else ((j - 7168) * 8 : Nat)

theorem countP_spread {L : Layout} (hleaf : L.nLeaf = 4096) {a n i : Nat}
    (h : ∀ j, a ≤ j → j < a + n → spread j = ((j - a) * 2 ^ i : Nat) ∧ (j - a) * 2 ^ i < 4096) (k : Nat) :
    ((List.range' a n).countP fun j => (drawLeaf L (spread j)).val >>> i == k) ≤ 1 := by
  have hval : ∀ j ∈ List.range' a n, (drawLeaf L (spread j)).val >>> i = j - a := by
    intro j hj
    rw [List.mem_range'_1] at hj
    obtain ⟨hspread, hlt⟩ := h j hj.1 hj.2
    have hsize : toSize ((j - a) * 2 ^ i : Nat) = (j - a) * 2 ^ i := by
      unfold toSize
      omega
    have hleaf : (drawLeaf L (spread j)).val = (j - a) * 2 ^ i := by
      rw [drawLeaf, hspread, toBid_val, hleaf, hsize, Nat.mod_eq_of_lt hlt, Nat.mod_eq_of_lt (by omega)]
    rw [hleaf, Nat.shiftRight_eq_div_pow, Nat.mul_div_cancel _ (Nat.two_pow_pos i)]
  have hcount : ((List.range' a n).countP fun j => (drawLeaf L (spread j)).val >>> i == k) =
      ((List.range' a n).map fun j => j - a).count k := by
    rw [List.count_eq_countP, List.countP_map]
    exact List.countP_congr fun j hj => by rw [Function.comp, hval j hj]
  have hnodup : ((List.range' a n).map fun j => j - a).Nodup :=
    (List.nodup_range').map_on fun x hx y hy hxy => by
      rw [List.mem_range'_1] at hx hy
      omega
  rw [hcount]
  exact List.nodup_iff_count_le_one.mp hnodup k

theorem noOverflow_light (needComStash : Bool) : NoOverflow (lightLayout needComStash) spread := by
  intro i hbit k
  have hbit : Nat.testBit 7680 i = true := hbit
  have hlt : i < 13 := by
    by_contra hge
    have hpow : 2 ^ 13 ≤ 2 ^ i := Nat.pow_le_pow_right (by decide) (not_lt.mp hge)
    rw [Nat.testBit_eq_false_of_lt (by omega)] at hbit
    exact absurd hbit Bool.false_ne_true
  have hslice : i = 9 ∨ i = 10 ∨ i = 11 ∨ i = 12 := by
    revert hbit
    interval_cases i <;> decide
  refine (countP_spread rfl (fun j hj hj' => ?_) k).trans (show 1 ≤ SIZE_BUCKET by decide)
  have hn : (lightLayout needComStash).nBlock = 7680 := rfl
  rw [hn] at hj hj' ⊢
  unfold spread
  rcases hslice with rfl | rfl | rfl | rfl
  · have hstart : sliceStart 7680 9 = 7168 := by decide
    rw [hstart] at hj hj' ⊢
    rw [if_neg (by omega), if_neg (by omega), if_neg (by omega)]
    exact ⟨rfl, show (j - 7168) * 8 < 4096 by omega⟩
  · have hstart : sliceStart 7680 10 = 6144 := by decide
    rw [hstart] at hj hj' ⊢
    rw [if_neg (by omega), if_neg (by omega), if_pos (by omega)]
    exact ⟨rfl, show (j - 6144) * 4 < 4096 by omega⟩
  · have hstart : sliceStart 7680 11 = 4096 := by decide
    rw [hstart] at hj hj' ⊢
    rw [if_neg (by omega), if_pos (by omega)]
    exact ⟨rfl, show (j - 4096) * 2 < 4096 by omega⟩
  · have hstart : sliceStart 7680 12 = 0 := by decide
    rw [hstart] at hj hj' ⊢
    rw [if_pos (by omega)]
    exact ⟨(congrArg Nat.cast (Nat.mul_one j)).symm, show (j - 0) * 1 < 4096 by omega⟩

theorem noOverflow_table (needComStash : Bool) : NoOverflow (tableLayout needComStash) spread := by
  intro i hbit k
  have hbit : Nat.testBit (2 ^ 12) i = true := hbit
  rw [Nat.testBit_two_pow, decide_eq_true_iff] at hbit
  subst hbit
  refine (countP_spread rfl (fun j hj hj' => ?_) k).trans (show 1 ≤ SIZE_BUCKET by decide)
  have hn : (tableLayout needComStash).nBlock = 4096 := rfl
  have hstart : sliceStart 4096 12 = 0 := by decide
  rw [hn, hstart] at hj hj' ⊢
  rw [spread, if_pos (by omega)]
  exact ⟨(congrArg Nat.cast (Nat.mul_one j)).symm, show (j - 0) * 1 < 4096 by omega⟩

section Load
variable {L : Layout}

theorem length_path_le {s : State L} (h : Placed s) {bid : Nat} (hb : bid < L.nBlock) :
    (Slots.occupants Block.real (readPath s (s.pos_map bid).val).flatten).length ≤ (L.level + 1) * L.sizeBucket := by
  have hbuckets : ∀ bucket ∈ Slots.readAt s.OblivSK (Slots.pathTo L.level (s.pos_map bid).val),
      bucket.length ≤ L.sizeBucket := by
    intro bucket hbucket
    obtain ⟨k, hk, rfl⟩ := List.mem_map.mp hbucket
    have hlt := pathTo_lt_length h hb k hk
    rw [List.getD_eq_getElem _ _ hlt]
    exact (h.bucket_length _ (List.getElem_mem hlt)).le
  have hsum := List.sum_le_card_nsmul _ L.sizeBucket (List.forall_mem_map.mpr hbuckets)
  rw [List.length_map, Slots.length_readAt, Slots.length_pathTo, smul_eq_mul, ← List.length_flatten] at hsum
  rw [readPath_eq h hb]
  exact (Slots.length_occupants_le _).trans hsum

/-- An access leaves no more blocks in the stash than it brought together. -/
theorem load_OAccess_le {s : State L} (h : WellFormed s) {index : Nat} (hb : L.block index < L.nBlock)
    (hload : s.load (L.block index) ≤ 100) (r : Int) (blk : Block L.bytes) {bid : Nat} (hbid : bid < L.nBlock) :
    (OAccess s index r blk).1.load bid ≤ s.load (L.block index) + (L.level + 1) * L.sizeBucket := by
  have hpath : (Slots.occupants Block.real
      (readPath (OAccess s index r blk).1 ((OAccess s index r blk).1.pos_map bid).val).flatten).length ≤
      (L.level + 1) * L.sizeBucket := length_path_le (run_spec h ⟨index, r, blk⟩ hb hload).1.toPlaced hbid
  have hstash : (Slots.occupants Block.real (OAccess s index r blk).1.stash).length ≤ s.load (L.block index) := by
    obtain ⟨len, c, -, -, -, heq⟩ := OAccess_spec h hb hload r blk
    have hperm : (OAccess s index r blk).1.stash.Perm (s.accessed (L.block index) (drawLeaf L r)).stash := by
      rw [heq]
      dsimp only
      split_ifs
      · exact OCompressStash_perm _
      · exact List.Perm.refl _
    have hroom : (Slots.occupants Block.real (readPath s (s.pos_map (L.block index)).val).flatten).length +
        (Slots.occupants Block.real s.stash).length ≤ s.stash.length := by
      rw [h.length, MAX_STASH_NUM]
      unfold State.load at hload
      omega
    have hrebuild := (Slots.occupants_rebuild (fun b : Block L.bytes => b.real_erase)
      (onPath L.level (Function.update s.pos_map (L.block index) (drawLeaf L r)) (s.pos_map (L.block index)).val) 0
      (cleared_holes (readPath s (s.pos_map (L.block index)).val))
      ((s.gathered (L.block index)).map (relabel (L.block index) (drawLeaf L r)))).length_eq
    rw [occupants_map_relabel, List.length_map, State.gathered, (Slots.occupants_insertAll hroom).length_eq,
      List.length_append, List.length_append] at hrebuild
    rw [(Slots.occupants_perm hperm).length_eq, State.accessed, State.load, State.rebuilt, State.gathered]
    dsimp only
    omega
  rw [State.load]
  omega

/-- The bucket at level `i` of a path holds blocks only if the number of blocks has the bit. -/
theorem length_bucket_le (m : Oram.Memory L) (pSource : Nat → Byte) {rand : Nat → Int}
    (hlevel : L.level = Nat.log 2 L.nBlock) (hm : 0 < L.sizeBucket) (h : NoOverflow L rand) {leaf i : Nat}
    (hleaf : leaf < 2 ^ L.level) (hi : i ≤ L.level) :
    (Slots.occupants Block.real ((Init_OCU L m pSource rand).1.OblivSK.getD (Slots.node L.level leaf i - 1) [])).length ≤
      if L.nBlock.testBit i then L.sizeBucket else 0 := by
  have hwf := Init_OCU_wellFormed m pSource rand hlevel hm h
  have hlt : Slots.node L.level leaf i - 1 < (Init_OCU L m pSource rand).1.OblivSK.length := by
    rw [hwf.tree_length]
    exact Slots.pathTo_lt hleaf (Slots.mem_pathTo.mpr ⟨i, hi, Nat.sub_add_cancel (Slots.one_le_node L.level leaf i)⟩)
  rw [List.getD_eq_getElem _ _ hlt]
  split_ifs with hbit
  · exact (Slots.length_occupants_le _).trans (hwf.bucket_length _ (List.getElem_mem hlt)).le
  · rw [Nat.le_zero, List.length_eq_zero_iff]
    refine Slots.occupants_of_holes fun c hc => Bool.eq_false_iff.mpr fun hr => hbit ?_
    have htree : (filledTree m pSource rand)[Slots.node L.level leaf i - 1]? =
        some (Init_OCU L m pSource rand).1.OblivSK[Slots.node L.level leaf i - 1] := by
      rw [← List.getElem?_eq_getElem hlt, Init_OCU_eq m pSource rand hlevel]
    obtain ⟨b, -, -, j, hj, hbit', hk⟩ := filledTree_stored m pSource rand hlevel hm htree hc hr
    have hnode : Slots.node L.level leaf i = Slots.node L.level (drawLeaf L (rand b)).val j := by
      have hfirst := Slots.one_le_node L.level leaf i
      have hpos := Nat.two_pow_pos j
      rw [Slots.node.eq_def L.level (drawLeaf L (rand b)).val j, ← Nat.shiftRight_eq_div_pow]
      omega
    rwa [Slots.level_of_node hi hj hleaf (drawLeaf_lt L (rand b)) hnode]

/-- The stash of a new sketch has room for every path. -/
theorem load_Init_OCU (m : Oram.Memory L) (pSource : Nat → Byte) {rand : Nat → Int} (hlevel : L.level = Nat.log 2 L.nBlock)
    (hm : 0 < L.sizeBucket) (h : NoOverflow L rand) {bid : Nat} (hb : bid < L.nBlock) :
    (Init_OCU L m pSource rand).1.load bid ≤
      ((List.range (L.level + 1)).map fun i => if L.nBlock.testBit i then L.sizeBucket else 0).sum := by
  have hwf := Init_OCU_wellFormed m pSource rand hlevel hm h
  have hdummy : Slots.occupants Block.real (Init_OCU L m pSource rand).1.stash = [] :=
    Slots.occupants_of_holes fun c => dummy_of_mem_stash m pSource rand hlevel
  rw [State.load, hdummy, List.length_nil, Nat.zero_add, readPath_eq hwf.toPlaced hb, Slots.readAt, Slots.pathTo,
    Slots.occupants, List.filter_flatten, List.length_flatten, List.map_map, List.map_map, List.map_map]
  refine List.sum_le_sum fun i hi => ?_
  exact length_bucket_le m pSource hlevel hm h (hwf.pos_lt bid hb) (Nat.lt_succ_iff.mp (List.mem_range.mp hi))

end Load

/-- A sketch that is asked for two flows in turn. -/
def asking (L : Layout) (f g : U32) : Burst L :=
  ⟨zeroMemory L, spread, 1, fun i => ⟨if i % 2 = 0 then f else g, 0, ⟨0, 0, fun _ => 0⟩⟩⟩

theorem turns_asking (L : Layout) (f g : U32) :
    (asking L f g).turns.take 2 = [⟨f, 0, ⟨0, 0, fun _ => 0⟩⟩, ⟨g, 0, ⟨0, 0, fun _ => 0⟩⟩] := by
  have hrepeats : (asking L f g).repeats.val = 1 := rfl
  have hmin : min 2 (1 * REPEAT_BASE % 4294967296) = 2 := by decide
  rw [Burst.turns, ← List.map_take, List.take_range, hrepeats, hmin]
  rfl

theorem fits_asking {L : Layout} (hlevel : L.level = Nat.log 2 L.nBlock) (hm : 0 < L.sizeBucket)
    (hroom : ((List.range (L.level + 1)).map fun i => if L.nBlock.testBit i then L.sizeBucket else 0).sum +
      (L.level + 1) * L.sizeBucket ≤ 100) (h : NoOverflow L spread) {stHash cusHash : U32 → U32} {t : STable}
    {pSource : Nat → Byte} {f g : U32} (hf : L.block (indexOf L stHash cusHash f) < L.nBlock)
    (hg : L.block (indexOf L stHash cusHash g) < L.nBlock) : (asking L f g).Fits stHash cusHash t pSource 2 := by
  refine ⟨h, ?_⟩
  rw [turns_asking]
  have hfirst := load_Init_OCU (zeroMemory L) pSource hlevel hm h hf
  have hwf := Init_OCU_wellFormed (zeroMemory L) pSource spread hlevel hm h
  have hsecond := load_OAccess_le hwf hf (by omega) 0 ⟨0, 0, fun _ => 0⟩ hg
  refine ⟨show (Init_OCU L (zeroMemory L) pSource spread).1.load (L.block (indexOf L stHash cusHash f)) ≤ 100 by omega,
    ?_, trivial⟩
  rw [OAccessFID_fst]
  exact hsecond.trans (by omega)

/-- Two flows without an entry have their counters, and two flows with one the sizes found by the plain search. -/
theorem burst_answers_descending :
    ∃ p2Sketch light t, receive noOutside noMallocs (sketchMessage descending) Secure.zeroCtx = some p2Sketch ∧
      sources (OPrepareData noOutside noDraws noMallocs (sketchMessage descending) Secure.zeroCtx firstEpoch).1 =
        some (light, t) ∧
      ((asking (lightLayout true) 5 6).answers (fun f => f) (fun f => f) t light).take 2 =
        [Fin.ofNat 4294967296 (light 5).val, Fin.ofNat 4294967296 (light 6).val] ∧
      ((asking (tableLayout true) 1 2).answers (fun f => f) (fun f => f) t (itemBytes t.pDataStashTable)).take 2 =
        [scanSizes 1 (rankSize p2Sketch 1) (stalePlaces (fun f => f) noItems 1),
          scanSizes 2 (rankSize p2Sketch 2) (stalePlaces (fun f => f) noItems 2)] := by
  obtain ⟨p2Sketch, hp, hreceived⟩ := receive_sketchMessage descending
  have hsorted : (received p2Sketch).Pairwise fun x y => y.size ≤ x.size := by
    rw [hreceived]
    exact descending_pairwise.imp le_of_lt
  have hfit : stOverflow (noOutside.Hash32 (seed noDraws.stHash)) ≤ ST_STASH_NUM := stOverflow_id.le.trans (Nat.zero_le _)
  obtain ⟨x, hx⟩ : ∃ x, tableCall noOutside noDraws noMallocs p2Sketch (saveHeavy firstEpoch) = x := ⟨_, rfl⟩
  have he : sources (OPrepareData noOutside noDraws noMallocs (sketchMessage descending) Secure.zeroCtx firstEpoch).1 =
      some (lightAfter noOutside noDraws noMallocs p2Sketch (saveHeavy firstEpoch), x.2.1) := by
    rw [OPrepareData_accepted hp, sources_evaluate hx]
  have hplaces : 0 < SIZE_BUCKET := by decide
  have hlight : ((List.range (12 + 1)).map fun i => if Nat.testBit 7680 i then SIZE_BUCKET else 0).sum +
      (12 + 1) * SIZE_BUCKET ≤ 100 := by decide
  have htable : ((List.range (12 + 1)).map fun i => if Nat.testBit (2 ^ 12) i then SIZE_BUCKET else 0).sum +
      (12 + 1) * SIZE_BUCKET ≤ 100 := by decide
  obtain ⟨hC, -, hT⟩ := burst_answers hp (listsSorted_of_received hsorted) hfit he (asking (lightLayout true) 5 6)
    (asking (tableLayout true) 1 2) (n := 2) (k := 2)
    (fits_asking log_nBlock_light.symm hplaces hlight (noOverflow_light true) (block_lt_light _ _ _) (block_lt_light _ _ _))
    (fits_asking (Nat.log_pow (by decide) 12).symm hplaces htable (noOverflow_table true) (block_lt_table _ _ _)
      (block_lt_table _ _ _))
  refine ⟨p2Sketch, _, _, hp, he, ?_, ?_⟩
  · rw [turns_asking] at hC
    exact hC
  · rw [turns_asking] at hT
    exact hT

end FOSketch.GlobalSketch
