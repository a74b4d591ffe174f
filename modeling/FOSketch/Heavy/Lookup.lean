import FOSketch.Heavy.STable
import FOSketch.Oram.Init

/-!
# The lookup in the stash table

`Init_OCU` copies the rows of the table into the blocks of a sketch of type `'T'`, and `OAccessFID` scans the block of a
flow and then the stash, where the last match counts. The table comes from `malloc` and the places behind a row's items
are never written, so the scan also sees what the memory held before: the answer is the recorded size unless such a place
carries the flow id with another size (`answer_eq`, `OAccessFID_eq_iff`).
-/

namespace FOSketch.Heavy

open Memory Oram

/-! ## Items as bytes -/

def itemByte (x : Item) (k : Nat) : Byte :=
  if k < 4 then toByte (x.flowID.val / 256 ^ k) else toByte (x.size.val / 256 ^ (k - 4))

def itemBytes (mem : Nat → Item) (a : Nat) : Byte := itemByte (mem (a / sizeofItem)) (a % sizeofItem)

def readU32 (bytes : Nat → Byte) (a : Nat) : U32 :=
  Fin.ofNat 4294967296 ((bytes a).val + (bytes (a + 1)).val * 256 + (bytes (a + 2)).val * 65536 +
    (bytes (a + 3)).val * 16777216)

def readItem (bytes : Nat → Byte) (a : Nat) : Item := ⟨readU32 bytes a, readU32 bytes (a + 4)⟩

theorem readU32_eq {bytes : Nat → Byte} {a : Nat} {x : U32}
    (h : ∀ k < 4, bytes (a + k) = toByte (x.val / 256 ^ k)) : readU32 bytes a = x := by
  have h0 := congrArg Fin.val (h 0 (by decide))
  have h1 := congrArg Fin.val (h 1 (by decide))
  have h2 := congrArg Fin.val (h 2 (by decide))
  have h3 := congrArg Fin.val (h 3 (by decide))
  simp only [toByte_val, Nat.add_zero, Nat.reducePow, Nat.div_one] at h0 h1 h2 h3
  apply Fin.ext
  have hlt := x.isLt
  have hval : (readU32 bytes a).val = ((bytes a).val + (bytes (a + 1)).val * 256 + (bytes (a + 2)).val * 65536 +
      (bytes (a + 3)).val * 16777216) % 4294967296 := rfl
  rw [hval, h0, h1, h2, h3]
  omega

theorem readItem_itemBytes (mem : Nat → Item) (i : Nat) : readItem (itemBytes mem) (sizeofItem * i) = mem i := by
  have hbyte : ∀ k < 8, itemBytes mem (sizeofItem * i + k) = itemByte (mem i) k := by
    intro k hk
    have hdiv : (sizeofItem * i + k) / sizeofItem = i := by unfold sizeofItem; omega
    have hmod : (sizeofItem * i + k) % sizeofItem = k := by unfold sizeofItem; omega
    rw [itemBytes, hdiv, hmod]
  have hflow : readU32 (itemBytes mem) (sizeofItem * i) = (mem i).flowID := by
    apply readU32_eq
    intro k hk
    rw [hbyte k (by omega), itemByte, if_pos hk]
  have hsize : readU32 (itemBytes mem) (sizeofItem * i + 4) = (mem i).size := by
    apply readU32_eq
    intro k hk
    rw [Nat.add_assoc, hbyte (4 + k) (by omega), itemByte, if_neg (by omega), Nat.add_sub_cancel_left]
  rw [readItem, hflow, hsize]

theorem readItem_congr {bytes bytes' : Nat → Byte} {a a' : Nat} (h : ∀ k < 8, bytes (a + k) = bytes' (a' + k)) :
    readItem bytes a = readItem bytes' a' := by
  unfold readItem readU32
  simp only [Nat.add_assoc]
  rw [← Nat.add_zero a, ← Nat.add_zero a', h 0 (by decide)]
  simp only [Nat.add_zero, Nat.reduceAdd]
  rw [h 1 (by decide), h 2 (by decide), h 3 (by decide), h 4 (by decide), h 5 (by decide), h 6 (by decide),
    h 7 (by decide)]

/-! ## The lookup -/

/-- The loop `size = OMove(…size, size, …flowID == flowID)`. -/
def scanSizes (flowID size : U32) (l : List Item) : U32 :=
  l.foldl (fun size x => OMove x.size size (x.flowID == flowID)) size

def itemAt (L : Layout) (blk : Block L.bytes) (x : Nat) : Item := readItem (byteAt L blk) (sizeofItem * x)

/-- `OAccessFID`, with the hash functions of `stHash` and `cusHash`. -/
def OAccessFID {L : Layout} (stHash cusHash : U32 → U32) (t : STable) (s : State L) (flowID : U32) (r : Int)
    (blk : Block L.bytes) : State L × U32 :=
  match L.sketchType with
  | .T =>
    let index := (stHash flowID).val % ST_BUCKET_NUM
    let a := OAccess s index r blk
    let size := if a.2.2 then scanSizes flowID 0 ((List.range L.nRecord).map (itemAt L a.2.1)) else 0
    (a.1, scanSizes flowID size t.stash)
  | .C | .L =>
    let index := (cusHash flowID).val % CUSKETCH_MEM
    let a := OAccess s index r blk
    (a.1, if a.2.2 then Fin.ofNat 4294967296 (byteAt L a.2.1 (index % L.nRecord)).val else 0)

/-- The sketch the constructor makes of the table. -/
def tableLayout (needComStash : Bool) : Layout where
  sketchType := .T
  sizeBlock := SIZE_BLOCK
  sizeBucket := SIZE_BUCKET
  nBlock := ST_BUCKET_NUM
  level := 12
  needComStash := needComStash
  sizeBlock_eq := sizeBlock_64
  level_lt := level_12

theorem layoutOf_table (needComStash : Bool) :
    layoutOf .T ST_TABLE_MEM SIZE_BLOCK SIZE_BUCKET needComStash sizeBlock_64 =
      some (tableLayout needComStash) := by
  have hblock : nBlockOf .T ST_TABLE_MEM SIZE_BLOCK = 2 ^ 12 := by decide
  have hlog : Nat.log 2 (2 ^ 12) = 12 := Nat.log_pow (by decide) 12
  unfold layoutOf
  simp only [hblock, hlog]
  rfl

theorem nRecord_table (needComStash : Bool) : (tableLayout needComStash).nRecord = ST_BUCKET_SIZE := by
  simp [Layout.nRecord, Layout.elemSize, tableLayout, SIZE_BLOCK, sizeofBid, sizeofItem, ST_BUCKET_SIZE]

theorem itemAt_skBlock {needComStash : Bool} (m : Oram.Memory (tableLayout needComStash)) (mem : Nat → Item) (j : Nat)
    (pos : Bid) {x : Nat} (hx : x < ST_BUCKET_SIZE) :
    itemAt (tableLayout needComStash) (skBlock m (itemBytes mem) j pos) x = mem (ST_BUCKET_SIZE * j + x) := by
  rw [ST_BUCKET_SIZE] at hx
  rw [itemAt, ← readItem_itemBytes mem]
  apply readItem_congr
  intro k hk
  have hbytes : (tableLayout needComStash).bytes = 60 := rfl
  have hpay : (tableLayout needComStash).payloadInd - 2 * sizeofBid = 4 := rfl
  have hrec : (tableLayout needComStash).nRecord * (tableLayout needComStash).elemSize = 56 := by
    rw [nRecord_table]
    rfl
  unfold byteAt
  rw [hpay, dif_pos (show 4 + (sizeofItem * x + k) < _ by rw [hbytes]; unfold sizeofItem; omega)]
  unfold skBlock
  dsimp only
  rw [hpay, if_neg (by omega), Nat.mul_assoc, hrec]
  congr 1
  unfold sizeofItem ST_BUCKET_SIZE
  omega

theorem records_skBlock {needComStash : Bool} (m : Oram.Memory (tableLayout needComStash)) (t : STable) (j : Nat) (pos : Bid) :
    (List.range (tableLayout needComStash).nRecord).map
      (itemAt (tableLayout needComStash) (skBlock m (itemBytes t.pDataStashTable) j pos)) = t.row j := by
  rw [nRecord_table]
  exact List.map_congr_left fun _ hx => itemAt_skBlock m t.pDataStashTable j pos (List.mem_range.mp hx)

/-! ## What the scan finds -/

@[simp] theorem scanSizes_nil (f size : U32) : scanSizes f size [] = size := rfl

theorem scanSizes_append (f size : U32) (l r : List Item) : scanSizes f size (l ++ r) = scanSizes f (scanSizes f size l) r :=
  List.foldl_append

theorem scanSizes_of_agree {f s : U32} {l : List Item} (h : ∀ x ∈ l, x.flowID = f → x.size = s) (size : U32) :
    scanSizes f size l = if ∃ x ∈ l, x.flowID = f then s else size := by
  induction l generalizing size with
  | nil => simp [scanSizes]
  | cons x l ih =>
    have hcons : scanSizes f size (x :: l) = scanSizes f (OMove x.size size (x.flowID == f)) l := rfl
    rw [hcons, ih fun y hy => h y (List.mem_cons_of_mem x hy)]
    by_cases hx : x.flowID = f
    · have hsize := h x List.mem_cons_self hx
      rw [beq_iff_eq.mpr hx, OMove_true, hsize, if_pos (⟨x, List.mem_cons_self, hx⟩ : ∃ y ∈ x :: l, y.flowID = f), ite_self]
    · have hiff : (∃ y ∈ x :: l, y.flowID = f) ↔ ∃ y ∈ l, y.flowID = f := by
        simp [hx]
      rw [beq_eq_false_iff_ne.mpr hx, OMove_false]
      simp only [hiff]

theorem scanSizes_of_absent {f : U32} {l : List Item} (h : ∀ x ∈ l, x.flowID ≠ f) (size : U32) :
    scanSizes f size l = size := by
  have hagree : ∀ x ∈ l, x.flowID = f → x.size = size := fun x hx he => absurd he (h x hx)
  rw [scanSizes_of_agree hagree, ite_self]

/-- The last match decides. -/
theorem scanSizes_eq_iff (f s : U32) (l : List Item) :
    scanSizes f s l = s ↔ ∀ x, (l.filter fun y => y.flowID == f).getLast? = some x → x.size = s := by
  induction l using List.reverseRecOn with
  | nil => simp [scanSizes]
  | append_singleton l x ih =>
    have hlast : scanSizes f (scanSizes f s l) [x] = OMove x.size (scanSizes f s l) (x.flowID == f) := rfl
    rw [scanSizes_append, hlast, List.filter_append]
    by_cases hx : x.flowID = f
    · rw [beq_iff_eq.mpr hx, OMove_true]
      simp [hx]
    · rw [beq_eq_false_iff_ne.mpr hx, OMove_false, ih]
      simp [hx]

theorem sizeOf_of_distinct {l : List Item} (h : (l.map Item.flowID).Nodup) {x : Item} (hx : x ∈ l) :
    sizeOf l x.flowID = x.size.val := by
  induction l with
  | nil => exact absurd hx List.not_mem_nil
  | cons y l ih =>
    rw [List.map_cons, List.nodup_cons] at h
    rcases List.mem_cons.mp hx with rfl | hxl
    · exact sizeOf_cons_self x l
    · have hne : y.flowID ≠ x.flowID := fun he => h.1 (he ▸ List.mem_map_of_mem hxl)
      rw [sizeOf_cons_of_ne hne, ih h.2 hxl]

theorem sizeOf_lt_word (l : List Item) (f : U32) : sizeOf l f < 4294967296 := by
  unfold sizeOf
  cases l.find? fun x => x.flowID == f with
  | none => decide
  | some x => exact x.size.isLt

/-! ## The answer -/

section Answer
variable {hash : U32 → U32} {rand : Nat → Int} {table stash HeavyHitterList HeavyHitterList' : Nat → Item} {t : STable}

def recorded (HeavyHitterList : Nat → Item) (f : U32) : U32 :=
  Fin.ofNat 4294967296 (sizeOf (curList HeavyHitterList NUM_HEAVY) f)

/-- The places of bucket `hash f` that no item is written to. -/
def stalePlaces (hash : U32 → U32) (table : Nat → Item) (f : U32) : List Item :=
  let b := (hash f).val % ST_BUCKET_NUM
  (load table (ST_BUCKET_SIZE * b) ST_BUCKET_SIZE).drop (stLoad hash b)

theorem recorded_of_mem {x : Item} (hx : x ∈ curList (renumber HeavyHitterList) NUM_HEAVY) :
    recorded (renumber HeavyHitterList) x.flowID = x.size := by
  rw [recorded, sizeOf_of_distinct (renumber_distinct HeavyHitterList) hx]
  exact Fin.ext (Nat.mod_eq_of_lt x.size.isLt)

theorem recorded_of_absent {f : U32} (h : ∀ x ∈ curList (renumber HeavyHitterList) NUM_HEAVY, x.flowID ≠ f) :
    recorded (renumber HeavyHitterList) f = 0 := by
  rw [recorded, sizeOf_of_absent h]
  rfl

end Answer

section Filled
variable {hash : U32 → U32} {ps : List (Nat × Item)} {l : List Item}
  (hbucket : ∀ p ∈ ps, p.1 = (hash p.2.flowID).val % ST_BUCKET_NUM) (hperm : (ps.map Prod.snd).Perm l)

include hbucket hperm

/-- The items of the row and of the stash give the size the list has. -/
theorem scan_fitted (hdistinct : (l.map Item.flowID).Nodup) (f : U32) :
    scanSizes f 0 ((group ps ((hash f).val % ST_BUCKET_NUM)).take ST_BUCKET_SIZE ++ spill (fun _ => 0) ps) =
      Fin.ofNat 4294967296 (sizeOf l f) := by
  generalize hb : (hash f).val % ST_BUCKET_NUM = b
  have hfrom : ∀ x ∈ (group ps b).take ST_BUCKET_SIZE ++ spill (fun _ => 0) ps, x ∈ l := by
    intro x hx
    rw [← hperm.mem_iff]
    rcases List.mem_append.mp hx with hx | hx
    · exact (group_sublist ps b).subset (List.mem_of_mem_take hx)
    · obtain ⟨c, hc, -⟩ := mem_spill hx
      exact List.mem_map_of_mem (f := Prod.snd) hc
  have hagree : ∀ x ∈ (group ps b).take ST_BUCKET_SIZE ++ spill (fun _ => 0) ps,
      x.flowID = f → x.size = Fin.ofNat 4294967296 (sizeOf l f) := by
    intro x hx he
    rw [← he, sizeOf_of_distinct hdistinct (hfrom x hx)]
    exact (Fin.ext (Nat.mod_eq_of_lt x.size.isLt)).symm
  rw [scanSizes_of_agree hagree]
  by_cases hf : ∃ x ∈ l, x.flowID = f
  · obtain ⟨x, hx, he⟩ := hf
    obtain ⟨p, hp, rfl⟩ := List.mem_map.mp (hperm.mem_iff.mpr hx)
    have hpb : p.1 = b := by rw [hbucket p hp, he, hb]
    have hmem : p.2 ∈ (group ps b).take (ST_BUCKET_SIZE - 0) ∨ p.2 ∈ spill (fun _ => 0) ps :=
      mem_row_or_spill (fun _ => 0) (show (b, p.2) ∈ ps from hpb ▸ hp)
    exact if_pos ⟨p.2, List.mem_append.mpr hmem, he⟩
  · push Not at hf
    rw [sizeOf_of_absent hf]
    exact ite_self 0

/-- **A look-up in a filled table**: the size the list has, then what the places left from before say. -/
theorem scan_filled (hdistinct : (l.map Item.flowID).Nodup) {table stash : Nat → Item} {t : STable}
    (h : fillST (fun _ => 0) ⟨table, stash, 0⟩ ps = (t, true)) (f : U32) :
    scanSizes f (scanSizes f 0 (t.row ((hash f).val % ST_BUCKET_NUM))) t.stash =
      scanSizes f (Fin.ofNat 4294967296 (sizeOf l f))
        ((load table (ST_BUCKET_SIZE * ((hash f).val % ST_BUCKET_NUM)) ST_BUCKET_SIZE).drop
          (group ps ((hash f).val % ST_BUCKET_NUM)).length) := by
  have hitems := scan_fitted hbucket hperm hdistinct f
  have hrow := fillST_row h ((hash f).val % ST_BUCKET_NUM)
  rw [List.take_zero, List.nil_append, Nat.sub_zero, Nat.zero_add] at hrow
  have hempty : STable.stash ⟨table, stash, 0⟩ = [] := rfl
  have hstash := fillST_stash h
  rw [hempty, List.nil_append] at hstash
  have hstale : STable.row ⟨table, stash, 0⟩ ((hash f).val % ST_BUCKET_NUM) =
      load table (ST_BUCKET_SIZE * ((hash f).val % ST_BUCKET_NUM)) ST_BUCKET_SIZE := rfl
  rw [hrow, hstash, hstale, scanSizes_append]
  rw [scanSizes_append] at hitems
  by_cases hfull : ST_BUCKET_SIZE < (group ps ((hash f).val % ST_BUCKET_NUM)).length
  · rw [List.drop_of_length_le (by rw [length_load]; exact hfull.le), scanSizes_nil, scanSizes_nil, hitems]
  · -- a bucket with room sent nothing to the stash
    have habsent : ∀ x ∈ spill (fun _ => 0) ps, x.flowID ≠ f := by
      intro x hx he
      obtain ⟨c, hc, hlt⟩ := mem_spill hx
      have hcb := hbucket _ hc
      dsimp only at hcb
      rw [he] at hcb
      rw [hcb, Nat.zero_add] at hlt
      exact hfull hlt
    rw [scanSizes_of_absent habsent] at hitems
    rw [scanSizes_of_absent habsent, hitems]

end Filled

section Delivered
variable {hash : U32 → U32} {rand : Nat → Int} {table stash HeavyHitterList HeavyHitterList' : Nat → Item} {t : STable}

/-- **The answer**: the recorded size, then what the places left from before say. -/
theorem answer_eq (h : OBuildSTable hash rand table stash HeavyHitterList = (HeavyHitterList', t, true)) (f : U32) :
    scanSizes f (scanSizes f 0 (t.row ((hash f).val % ST_BUCKET_NUM))) t.stash =
      scanSizes f (recorded HeavyHitterList' f) (stalePlaces hash table f) := by
  rw [OBuildSTable_eq, Prod.mk.injEq] at h
  obtain ⟨rfl, h⟩ := h
  rw [scan_filled (fun p hp => stItems_bucket hp) (stItems_perm hash rand HeavyHitterList)
    (renumber_distinct HeavyHitterList) h f, length_group_stItems]
  rfl

theorem OAccessFID_delivered (h : OBuildSTable hash rand table stash HeavyHitterList = (HeavyHitterList', t, true))
    {needComStash : Bool} (m : Oram.Memory (tableLayout needComStash)) (cusHash : U32 → U32)
    (s : State (tableLayout needComStash)) (f : U32) (r : Int) (blk : Block (tableLayout needComStash).bytes) (pos : Bid)
    (hdelivered : (OAccess s ((hash f).val % ST_BUCKET_NUM) r blk).2 =
      (skBlock m (itemBytes t.pDataStashTable) ((hash f).val % ST_BUCKET_NUM) pos, true)) :
    (OAccessFID hash cusHash t s f r blk).2 = scanSizes f (recorded HeavyHitterList' f) (stalePlaces hash table f) := by
  have hscan : (OAccessFID hash cusHash t s f r blk).2 =
      scanSizes f (if (OAccess s ((hash f).val % ST_BUCKET_NUM) r blk).2.2 then
        scanSizes f 0 ((List.range (tableLayout needComStash).nRecord).map
          (itemAt (tableLayout needComStash) (OAccess s ((hash f).val % ST_BUCKET_NUM) r blk).2.1)) else 0) t.stash := rfl
  rw [hscan, hdelivered, if_pos rfl, records_skBlock, answer_eq h]

/-- **`OAccessFID` on the table**, if `OAccess` delivers the block: the answer is the recorded size exactly if the last of
the unwritten places of the bucket that carries the flow id, if there is one, has that size. -/
theorem OAccessFID_eq_iff (h : OBuildSTable hash rand table stash HeavyHitterList = (HeavyHitterList', t, true))
    {needComStash : Bool} (m : Oram.Memory (tableLayout needComStash)) (cusHash : U32 → U32)
    (s : State (tableLayout needComStash)) (f : U32) (r : Int) (blk : Block (tableLayout needComStash).bytes) (pos : Bid)
    (hdelivered : (OAccess s ((hash f).val % ST_BUCKET_NUM) r blk).2 =
      (skBlock m (itemBytes t.pDataStashTable) ((hash f).val % ST_BUCKET_NUM) pos, true)) :
    (OAccessFID hash cusHash t s f r blk).2.val = sizeOf (curList HeavyHitterList' NUM_HEAVY) f ↔
      ∀ x, ((stalePlaces hash table f).filter fun y => y.flowID == f).getLast? = some x →
        x.size = recorded HeavyHitterList' f := by
  have hrecorded : (recorded HeavyHitterList' f).val = sizeOf (curList HeavyHitterList' NUM_HEAVY) f :=
    Nat.mod_eq_of_lt (sizeOf_lt_word _ f)
  rw [OAccessFID_delivered h m cusHash s f r blk pos hdelivered, ← scanSizes_eq_iff, ← hrecorded, Fin.ext_iff]

end Delivered

/-! ## A flow nobody recorded -/

theorem stLoad_id_le (b : Nat) : stLoad id b ≤ 5 := by
  have hcount : ((List.range NUM_HEAVY).countP fun i => (1 + i) % ST_BUCKET_NUM == b) ≤ NUM_HEAVY / ST_BUCKET_NUM + 1 :=
    countP_residue_le (by decide) NUM_HEAVY 1 b
  have hload : stLoad id b = (List.range NUM_HEAVY).countP fun i => (1 + i) % ST_BUCKET_NUM == b := by
    refine List.countP_congr fun i hi => ?_
    have hlt := List.mem_range.mp hi
    unfold NUM_HEAVY HEAVY_MEM HEAVY_PAIR_SIZE at hlt
    have hval : (id (Fin.ofNat 4294967296 (i + 1)) : U32).val = 1 + i :=
      (Nat.mod_eq_of_lt (by omega)).trans (Nat.add_comm i 1)
    rw [hval]
  rw [hload]
  exact hcount

/-- A sketch whose only block, `j`, is in the stash. -/
def holding (needComStash : Bool) (m : Oram.Memory (tableLayout needComStash)) (pSource : Nat → Byte) (j : Nat) :
    State (tableLayout needComStash) where
  stash := [skBlock m pSource j 0]
  length_st := 1
  OblivSK := []
  pos_map := fun _ => 0

theorem OAccess_holding (needComStash : Bool) (m : Oram.Memory (tableLayout needComStash)) (pSource : Nat → Byte) {j : Nat}
    (hj : j < ST_BUCKET_NUM) (r : Int) (blk : Block (tableLayout needComStash).bytes) :
    (OAccess (holding needComStash m pSource j) j r blk).2 =
      (skBlock m pSource j (drawLeaf (tableLayout needComStash) r), true) := by
  have hbid : (toBid ((tableLayout needComStash).block j)).val = j := by
    have hb : (tableLayout needComStash).block j = j := rfl
    rw [hb, toBid_val]
    unfold ST_BUCKET_NUM at hj
    omega
  have hpath : ∀ leaf, (readPath (holding needComStash m pSource j) leaf).flatten = [] := by
    intro leaf
    unfold readPath Slots.readAt
    simp [holding]
  have hwrite : ∀ leaf, OWriteToStash (holding needComStash m pSource j)
      (readPath (holding needComStash m pSource j) leaf) = holding needComStash m pSource j := by
    intro leaf
    unfold OWriteToStash writeLoop
    rw [hpath, List.foldl_nil]
  unfold OAccess
  dsimp only
  rw [hbid, hwrite, OReadFromStash_eq]
  have hfound : (skBlock m pSource j 0).blockID.val = j := by
    unfold ST_BUCKET_NUM at hj
    exact Nat.mod_eq_of_lt (by omega)
  simp [readLoop, holding, readScan, hfound, addIfMissing, copyIf]
  rfl

theorem stOverflow_id : stOverflow id = 0 := by
  unfold stOverflow
  exact Finset.sum_eq_zero fun b _ => Nat.sub_eq_zero_of_le ((stLoad_id_le b).trans (by decide))

/-- The flow ids are spread evenly, so the table is built. -/
theorem OBuildSTable_id (rand : Nat → Int) (table stash HeavyHitterList : Nat → Item) :
    ∃ t, OBuildSTable id rand table stash HeavyHitterList = (renumber HeavyHitterList, t, true) := by
  have htrue := (OBuildSTable_true_iff id rand table stash HeavyHitterList).mpr (stOverflow_id.le.trans (Nat.zero_le _))
  have hfst : (OBuildSTable id rand table stash HeavyHitterList).1 = renumber HeavyHitterList := by
    rw [OBuildSTable_eq]
  generalize OBuildSTable id rand table stash HeavyHitterList = built at htrue hfst ⊢
  obtain ⟨list, t, result⟩ := built
  dsimp only at htrue hfst
  rw [htrue, hfst]
  exact ⟨t, rfl⟩

def noItems : Nat → Item := fun _ => ⟨0, 0⟩

def blankMemory : Oram.Memory (tableLayout false) where
  sk := fun _ => ⟨0, 0, fun _ => 0⟩
  stash := fun _ => ⟨0, 0, fun _ => 0⟩
  pos_map := fun _ => 0
  OblivSK := fun _ => ⟨0, 0, fun _ => 0⟩

/-- In cleared memory the answer for a recorded flow is its size. -/
theorem OAccessFID_eq_iff_cleared :
    ∃ t, OBuildSTable id (fun _ => 0) noItems noItems (fun _ => ⟨9, 7⟩) = (renumber fun _ => ⟨9, 7⟩, t, true) ∧
      (OAccessFID id id t (holding false blankMemory (itemBytes t.pDataStashTable) 1) 1 0 ⟨0, 0, fun _ => 0⟩).2.val =
        sizeOf (curList (renumber fun _ => ⟨9, 7⟩) NUM_HEAVY) 1 := by
  obtain ⟨t, ht⟩ := OBuildSTable_id (fun _ => 0) noItems noItems fun _ => ⟨9, 7⟩
  refine ⟨t, ht, ?_⟩
  refine (OAccessFID_eq_iff ht blankMemory id _ 1 0 _ _ (OAccess_holding false blankMemory _ (by decide) 0 _)).mpr ?_
  intro x hx
  obtain ⟨hstale, hflow⟩ := List.mem_filter.mp (List.mem_of_getLast? hx)
  obtain ⟨k, -, rfl⟩ := List.mem_map.mp (List.mem_of_mem_drop hstale)
  have hzero : ((0 : U32) == 1) = true := hflow
  exact absurd hzero (by decide)

/-- The memory holds a pair from before: the answer for a flow without an entry is its size, not `0`. -/
theorem OAccessFID_stale :
    ∃ t, OBuildSTable id (fun _ => 0) (fun _ => ⟨20000, 5⟩) noItems noItems = (renumber noItems, t, true) ∧
      (OAccessFID id id t (holding false blankMemory (itemBytes t.pDataStashTable) 3616) 20000 0 ⟨0, 0, fun _ => 0⟩).2 = 5 ∧
      sizeOf (curList (renumber noItems) NUM_HEAVY) 20000 = 0 := by
  obtain ⟨t, ht⟩ := OBuildSTable_id (fun _ => 0) (fun _ => ⟨20000, 5⟩) noItems noItems
  refine ⟨t, ht, ?_, ?_⟩
  · have hbucket : (id 20000 : U32).val % ST_BUCKET_NUM = 3616 := by decide
    have hdelivered := OAccess_holding false blankMemory (itemBytes t.pDataStashTable) (show 3616 < ST_BUCKET_NUM by decide) 0
      ⟨0, 0, fun _ => 0⟩
    rw [← hbucket] at hdelivered ⊢
    rw [OAccessFID_delivered ht blankMemory id _ 20000 0 _ _ hdelivered]
    have hagree : ∀ x ∈ stalePlaces id (fun _ => ⟨20000, 5⟩) 20000, x.flowID = 20000 → x.size = 5 := by
      intro x hx _
      obtain ⟨k, -, rfl⟩ := List.mem_map.mp (List.mem_of_mem_drop hx)
      rfl
    rw [scanSizes_of_agree hagree, if_pos]
    have hload := stLoad_id_le (((id 20000 : U32).val) % ST_BUCKET_NUM)
    obtain ⟨x, hx⟩ : ∃ x, x ∈ stalePlaces id (fun _ => ⟨20000, 5⟩) 20000 := by
      apply List.exists_mem_of_length_pos
      unfold stalePlaces
      rw [List.length_drop, length_load]
      unfold ST_BUCKET_SIZE
      omega
    refine ⟨x, hx, ?_⟩
    obtain ⟨k, -, rfl⟩ := List.mem_map.mp (List.mem_of_mem_drop hx)
    rfl
  · apply sizeOf_of_absent
    intro x hx he
    obtain ⟨i, hi, rfl⟩ := List.mem_map.mp hx
    have hval := flowID_renumber noItems (List.mem_range.mp hi)
    rw [he] at hval
    have hlt := List.mem_range.mp hi
    unfold NUM_HEAVY HEAVY_MEM HEAVY_PAIR_SIZE at hlt
    have h20000 : (20000 : U32).val = 20000 := rfl
    omega

end FOSketch.Heavy
