import FOSketch.Heavy.Loads
import FOSketch.Heavy.Prepare

/-!
# What an accepted message leaves

The merged heavy list has the received pairs, in non-increasing order if both lists are. `OBuildSTable` then numbers its
first half from `1` on, in place: `OResponseHeavyHitter` answers with the sizes of the largest flows, but with their ranks
instead of their ids (`OResponseHeavyHitter_eq`). The calls of `OHeavyChange` and `OBuildSTable` may fail, which the result
of `OPrepareData` does not say (`changeCall_isSome_iff`, `tableCall_true_iff`).
-/

namespace FOSketch.Heavy

open Memory Secure

/-! ## The merged list -/

def heavyList (p2Sketch : Nat → Byte) (base : Nat) : List Item :=
  (List.range NUM_HEAVY).map fun i => readItem p2Sketch (base + heavyStart + sizeofItem * i)

def received (p2Sketch : Nat → Byte) : List Item := heavyList p2Sketch 0 ++ heavyList p2Sketch (TOTAL_MEM + 2)

def ListsSorted (p2Sketch : Nat → Byte) : Prop :=
  ∀ base ∈ [0, TOTAL_MEM + 2], (heavyList p2Sketch base).Pairwise fun x y => y.size ≤ x.size

theorem length_heavyList (p2Sketch : Nat → Byte) (base : Nat) : (heavyList p2Sketch base).length = NUM_HEAVY := by
  rw [heavyList, List.length_map, List.length_range]

theorem length_received (p2Sketch : Nat → Byte) : (received p2Sketch).length = NUM_HEAVY * 2 := by
  rw [received, List.length_append, length_heavyList, length_heavyList, Nat.mul_two]

theorem load_receivedHeavy (p2Sketch : Nat → Byte) (list : Nat → Item) :
    load (receivedHeavy p2Sketch list) 0 (NUM_HEAVY * 2) = received p2Sketch := by
  have hfirst : load (receivedHeavy p2Sketch list) 0 NUM_HEAVY = heavyList p2Sketch 0 := by
    refine List.map_congr_left fun i hi => ?_
    rw [receivedHeavy, Nat.zero_add, Nat.zero_add, if_pos (List.mem_range.mp hi)]
  have hsecond : load (receivedHeavy p2Sketch list) NUM_HEAVY NUM_HEAVY = heavyList p2Sketch (TOTAL_MEM + 2) := by
    refine List.map_congr_left fun i hi => ?_
    have hlt := List.mem_range.mp hi
    rw [receivedHeavy, if_neg (by omega), if_pos (by omega), Nat.add_sub_cancel_left]
  rw [Nat.mul_two, load_add, Nat.zero_add, hfirst, hsecond, received]

def merged (p2Sketch : Nat → Byte) : List Item := OddEvenMergeSorter.merge smallerItem (received p2Sketch) (NUM_HEAVY * 2)

theorem merged_perm (p2Sketch : Nat → Byte) : (merged p2Sketch).Perm (received p2Sketch) :=
  OddEvenMergeSorter.merge_perm _ _ _

theorem merged_pairwise {p2Sketch : Nat → Byte} (h : ListsSorted p2Sketch) :
    (merged p2Sketch).Pairwise fun x y => y.size ≤ x.size := by
  have hNUM : NUM_HEAVY = 2 ^ 14 := by decide
  have hlen : ∀ base, (heavyList p2Sketch base).length = 2 ^ 14 := fun base => (length_heavyList p2Sketch base).trans hNUM
  have hnum : NUM_HEAVY * 2 = 2 ^ (14 + 1) := by decide
  rw [merged, hnum]
  exact OddEvenMergeSorter.merge_pairwise smallerItem_compares (hlen 0) (hlen _) (by decide)
    (h 0 List.mem_cons_self) (h _ (List.mem_cons_of_mem _ List.mem_cons_self))

theorem load_mergedHeavy (p2Sketch : Nat → Byte) (g : Epoch) :
    load (mergedHeavy p2Sketch g) 0 (NUM_HEAVY * 2) = merged p2Sketch := by
  have hpo2 : testPo2 (NUM_HEAVY * 2) = true := testPo2_iff.mpr ⟨15, by decide⟩
  have hlen : (merged p2Sketch).length = NUM_HEAVY * 2 := (merged_perm p2Sketch).length_eq.trans (length_received p2Sketch)
  have hstore : mergedHeavy p2Sketch g = store (receivedHeavy p2Sketch g.HeavyHitterList) 0 (merged p2Sketch) := by
    rw [mergedHeavy, mergeHeavy, if_pos hpo2, load_receivedHeavy, merged]
  rw [hstore, ← hlen, load_store]

theorem getElem?_merged (p2Sketch : Nat → Byte) (g : Epoch) {i : Nat} (hi : i < NUM_HEAVY * 2) :
    (merged p2Sketch)[i]? = some (mergedHeavy p2Sketch g i) := by
  rw [← load_mergedHeavy p2Sketch g, getElem?_load _ _ hi, Nat.zero_add]

/-! ## Ranks -/

def sizesDESC (l : List Item) : List U32 := (l.map Item.size).mergeSort fun a b => decide (b ≤ a)

/-- The pair of rank `i`: the rank as flow id, counted from `1`. -/
def rankItem (l : List Item) (i : Nat) : Item := ⟨Fin.ofNat 4294967296 (i + 1), (sizesDESC l).getD i 0⟩

theorem sizesDESC_perm (l : List Item) : (sizesDESC l).Perm (l.map Item.size) := List.mergeSort_perm _ _

theorem sizesDESC_pairwise (l : List Item) : (sizesDESC l).Pairwise fun a b => b ≤ a :=
  List.pairwise_mergeSort' (· ≥ ·) (l.map Item.size)

theorem map_size_eq {l l' : List Item} (hperm : l'.Perm l) (h : l'.Pairwise fun x y => y.size ≤ x.size) :
    l'.map Item.size = sizesDESC l := by
  refine ((hperm.map Item.size).trans (sizesDESC_perm l).symm).eq_of_pairwise ?_ (List.pairwise_map.mpr h)
    (sizesDESC_pairwise l)
  exact fun a b _ _ hab hba => le_antisymm hba hab

theorem rankItem_of_sorted {l : List Item} (h : l.Pairwise fun x y => y.size ≤ x.size) {i : Nat} {x : Item}
    (hx : l[i]? = some x) :
    rankItem l i = ⟨Fin.ofNat 4294967296 (i + 1), x.size⟩ := by
  have hsize : (sizesDESC l)[i]? = some x.size := by
    rw [← map_size_eq (List.Perm.refl l) h, List.getElem?_map, hx, Option.map_some]
  rw [rankItem, List.getD_eq_getElem?_getD, hsize, Option.getD_some]

/-- `response` has `k` pairs of largest size of a list, in non-increasing order. -/
structure Top (k : Nat) (response list : List Item) : Prop where
  length_eq : response.length = k
  sorted : response.Pairwise fun x y => y.size ≤ x.size
  largest : ∃ rest, (response ++ rest).Perm list ∧ ∀ x ∈ response, ∀ y ∈ rest, y.size ≤ x.size

theorem map_size_ranks {l : List Item} {k : Nat} (hk : k ≤ l.length) :
    ((List.range k).map (rankItem l)).map Item.size = (sizesDESC l).take k := by
  have hlen : (sizesDESC l).length = l.length := (sizesDESC_perm l).length_eq.trans (List.length_map _)
  refine List.ext_getElem (by simp [hlen, hk]) fun i h1 h2 => ?_
  rw [List.length_map, List.length_map, List.length_range] at h1
  simp only [List.getElem_map, List.getElem_range, List.getElem_take, rankItem]
  exact List.getD_eq_getElem _ _ (by omega)

theorem ranks_nodup (l : List Item) {k : Nat} (hk : k < 4294967296) : ((List.range k).map (rankItem l)).Nodup := by
  refine List.Nodup.map_on (fun i hi j hj he => ?_) List.nodup_range
  have hval : (i + 1) % 4294967296 = (j + 1) % 4294967296 := congrArg (fun x : Item => x.flowID.val) he
  rw [List.mem_range] at hi hj
  omega

/-- **The ranked pairs are the largest ones** if the list contains them. -/
theorem top_ranks {l : List Item} {k : Nat} (hk : k ≤ l.length) (hlt : k < 4294967296) (hmem : ∀ i < k, rankItem l i ∈ l) :
    Top k ((List.range k).map (rankItem l)) l := by
  have hsizes := map_size_ranks hk
  have hsorted := sizesDESC_pairwise l
  rw [← List.take_append_drop k (sizesDESC l), List.pairwise_append] at hsorted
  have hsub : (List.range k).map (rankItem l) ⊆ l := by
    intro x hx
    obtain ⟨i, hi, rfl⟩ := List.mem_map.mp hx
    exact hmem i (List.mem_range.mp hi)
  obtain ⟨l', hperm, hsublist⟩ := (ranks_nodup l hlt).subperm hsub
  obtain ⟨rest, hrest⟩ := hsublist.exists_perm_append
  have hall : ((List.range k).map (rankItem l) ++ rest).Perm l := (hrest.trans (hperm.append_right rest)).symm
  refine ⟨by rw [List.length_map, List.length_range], ?_, rest, hall, ?_⟩
  · exact List.pairwise_map.mp (hsizes ▸ hsorted.1)
  · intro x hx y hy
    have hmap := (hall.map Item.size).trans (sizesDESC_perm l).symm
    rw [List.map_append, hsizes] at hmap
    have hdrop : (rest.map Item.size).Perm ((sizesDESC l).drop k) := by
      rw [← List.perm_append_left_iff ((sizesDESC l).take k), List.take_append_drop]
      exact hmap
    apply hsorted.2.2 _ (hsizes ▸ List.mem_map_of_mem hx) _
    exact hdrop.mem_iff.mp (List.mem_map_of_mem hy)

theorem Top.mem {k : Nat} {response list : List Item} (h : Top k response list) {x : Item} (hx : x ∈ response) :
    x ∈ list := by
  obtain ⟨rest, hperm, -⟩ := h.largest
  exact hperm.mem_iff.mp (List.mem_append_left rest hx)

/-! ## `OResponseHeavyHitter` -/

section Accepted
variable {out : Outside} {draws : Draws} {m : Mallocs} {pMsgSketch : Message} {pCtx : Ctx} {g g' : Epoch}
  {p2Sketch : Nat → Byte}

theorem OPrepareData_accepted (hp : receive out m pMsgSketch pCtx = some p2Sketch) :
    OPrepareData out draws m pMsgSketch pCtx g = (evaluate out draws m p2Sketch (saveHeavy g), true) := by
  rw [OPrepareData, hp]

/-- The entries are the merged ones under new ids. -/
theorem HeavyHitterList_evaluate (g : Epoch) :
    (evaluate out draws m p2Sketch g).HeavyHitterList = renumber (mergedHeavy p2Sketch g) := by
  have htable : (evaluate out draws m p2Sketch g).HeavyHitterList = (tableCall out draws m p2Sketch g).1 := rfl
  rw [htable, tableCall, OBuildSTable_eq]

/-- **The response**: the ranks with the sizes of the largest flows. -/
theorem OResponseHeavyHitter_eq (hp : receive out m pMsgSketch pCtx = some p2Sketch) (hs : ListsSorted p2Sketch) {k : Nat}
    (hk : k ≤ NUM_HEAVY) :
    OResponseHeavyHitter (OPrepareData out draws m pMsgSketch pCtx g).1 k =
      (List.range k).map (rankItem (received p2Sketch)) := by
  rw [OPrepareData_accepted hp, OResponseHeavyHitter, HeavyHitterList_evaluate, if_neg (not_lt.mpr hk)]
  refine List.map_congr_left fun i hi => ?_
  have hlt : i < NUM_HEAVY := (List.mem_range.mp hi).trans_le hk
  have hsize : ((merged p2Sketch).map Item.size)[i]? = (sizesDESC (received p2Sketch))[i]? := by
    rw [map_size_eq (merged_perm p2Sketch) (merged_pairwise hs)]
  rw [List.getElem?_map, getElem?_merged p2Sketch (saveHeavy g) (by omega), Option.map_some] at hsize
  rw [renumber, if_pos hlt, rankItem, List.getD_eq_getElem?_getD, ← hsize, Option.getD_some]

/-- **The response is right** exactly if the received pairs carry their ranks as flow ids. -/
theorem OResponseHeavyHitter_top_iff (hp : receive out m pMsgSketch pCtx = some p2Sketch) (hs : ListsSorted p2Sketch)
    (h : OPrepareData out draws m pMsgSketch pCtx g = (g', true)) :
    (∀ k ≤ NUM_HEAVY, Top k (OResponseHeavyHitter g' k) (received p2Sketch)) ↔
      ∀ i < NUM_HEAVY, rankItem (received p2Sketch) i ∈ received p2Sketch := by
  have hresponse : ∀ k ≤ NUM_HEAVY, OResponseHeavyHitter g' k = (List.range k).map (rankItem (received p2Sketch)) := by
    intro k hk
    have heq : OResponseHeavyHitter (OPrepareData out draws m pMsgSketch pCtx g).1 k = _ :=
      OResponseHeavyHitter_eq hp hs hk
    rwa [h] at heq
  constructor
  · intro htop i hi
    apply (htop NUM_HEAVY le_rfl).mem
    rw [hresponse NUM_HEAVY le_rfl]
    exact List.mem_map_of_mem (List.mem_range.mpr hi)
  · intro hmem k hk
    have hNUM : NUM_HEAVY < 4294967296 := by decide
    rw [hresponse k hk]
    exact top_ranks (by rw [length_received]; omega) (by omega) fun i hi => hmem i (hi.trans_le hk)

/-! ## The calls that may fail -/

/-- The loads of the bucket table for the merged list. -/
def LoadsFit (out : Outside) (draws : Draws) (p2Sketch : Nat → Byte) (g : Epoch) : Prop :=
  Fits BT_BUCKET_NUM BT_BUCKET_MAX_NUM BT_BUCKET_MAX_SIZE
    (prevLoad (out.Hash32 (seed draws.btHash)) draws.change (mergedHeavy p2Sketch g) NUM_HEAVY BT_BUCKET_NUM)
    (curLoad (out.Hash32 (seed draws.btHash)) draws.change (mergedHeavy p2Sketch g) NUM_HEAVY BT_BUCKET_NUM)

theorem changeCall_isSome_iff : (changeCall out draws m p2Sketch g).isSome ↔ LoadsFit out draws p2Sketch g :=
  OHeavyChange_isSome_iff _ _ _ _ _ (show 0 < BT_BUCKET_NUM by decide) (show BT_BUCKET_SIZE < BT_BUCKET_MAX_SIZE by decide)

theorem tableCall_true_iff :
    (tableCall out draws m p2Sketch g).2.2 = true ↔ stOverflow (out.Hash32 (seed draws.stHash)) ≤ ST_STASH_NUM :=
  OBuildSTable_true_iff _ _ _ _ _

/-- **The result covers both calls** exactly if the buckets hold the flows and the stash holds what is left over. -/
theorem OPrepareData_complete_iff (hp : receive out m pMsgSketch pCtx = some p2Sketch) :
    ((OPrepareData out draws m pMsgSketch pCtx g).2 = true →
      (changeCall out draws m p2Sketch (saveHeavy g)).isSome ∧ (tableCall out draws m p2Sketch (saveHeavy g)).2.2 = true) ↔
      LoadsFit out draws p2Sketch (saveHeavy g) ∧ stOverflow (out.Hash32 (seed draws.stHash)) ≤ ST_STASH_NUM := by
  rw [changeCall_isSome_iff, tableCall_true_iff, OPrepareData_accepted hp]
  exact ⟨fun h => h rfl, fun h _ => h⟩

end Accepted

/-! ## Two messages -/

/-- A payload with the heavy lists of `items`, one behind the other. -/
def sketchBytes (items : Nat → Item) (a : Nat) : Byte :=
  if a < TOTAL_MEM + 2 then itemBytes items (a - heavyStart)
  else itemBytes (fun i => items (NUM_HEAVY + i)) (a - (TOTAL_MEM + 2 + heavyStart))

def sketchCall (items : Nat → Item) : PackCall where
  message := emptyMessage
  type := .STAT
  payload := load (sketchBytes items) 0 (2 * (TOTAL_MEM + 2))
  mem := fun _ => 0

def sketchMessage (items : Nat → Item) : Message := ((sketchCall items).run aesGcm zeroCtx).1

theorem payload_total : 2 * (TOTAL_MEM + 2) = 1183748 := by decide

theorem length_sketchCall (items : Nat → Item) : (sketchCall items).payload.length = 1183748 := by
  unfold sketchCall
  rw [length_load, payload_total]

theorem sketchCall_fits (items : Nat → Item) : (sketchCall items).Fits := by
  have hlen := length_sketchCall items
  exact ⟨by omega, by omega⟩

theorem readItem_sketchBytes (items : Nat → Item) {i : Nat} (hi : i < NUM_HEAVY) :
    readItem (sketchBytes items) (heavyStart + sizeofItem * i) = items i ∧
      readItem (sketchBytes items) (TOTAL_MEM + 2 + heavyStart + sizeofItem * i) = items (NUM_HEAVY + i) := by
  unfold NUM_HEAVY HEAVY_MEM HEAVY_PAIR_SIZE at hi
  constructor
  · rw [← readItem_itemBytes items i]
    refine readItem_congr fun k hk => ?_
    rw [sketchBytes, if_pos]
    · exact congrArg _ (by omega)
    · unfold heavyStart TOTAL_MEM CUSKETCH_MEM HEAVY_MEM sizeofItem
      omega
  · rw [← readItem_itemBytes (fun i => items (NUM_HEAVY + i)) i]
    refine readItem_congr fun k hk => ?_
    rw [sketchBytes, if_neg (by omega)]
    exact congrArg _ (by omega)

theorem received_of_agree {p2Sketch : Nat → Byte} {items : Nat → Item}
    (h : ∀ a < 2 * (TOTAL_MEM + 2), p2Sketch a = sketchBytes items a) :
    received p2Sketch = load items 0 (NUM_HEAVY * 2) := by
  have hlast : ∀ i < NUM_HEAVY, ∀ k < 8, heavyStart + sizeofItem * i + k < TOTAL_MEM + 2 := by
    intro i hi k hk
    unfold NUM_HEAVY HEAVY_MEM HEAVY_PAIR_SIZE at hi
    unfold heavyStart TOTAL_MEM CUSKETCH_MEM HEAVY_MEM sizeofItem
    omega
  have hfirst : heavyList p2Sketch 0 = load items 0 NUM_HEAVY := by
    refine List.map_congr_left fun i hi => ?_
    have hlt := List.mem_range.mp hi
    rw [Nat.zero_add, Nat.zero_add, ← (readItem_sketchBytes items hlt).1]
    exact readItem_congr fun k hk => h _ (by have := hlast i hlt k hk; omega)
  have hsecond : heavyList p2Sketch (TOTAL_MEM + 2) = load items NUM_HEAVY NUM_HEAVY := by
    refine List.map_congr_left fun i hi => ?_
    have hlt := List.mem_range.mp hi
    rw [← (readItem_sketchBytes items hlt).2]
    exact readItem_congr fun k hk => h _ (by have := hlast i hlt k hk; omega)
  rw [received, hfirst, hsecond, Nat.mul_two, load_add, Nat.zero_add]

/-- The message is accepted with the bytes it was packed from. -/
theorem receive_sketchBytes (items : Nat → Item) :
    ∃ p2Sketch, receive noOutside noMallocs (sketchMessage items) zeroCtx = some p2Sketch ∧
      ∀ a < 2 * (TOTAL_MEM + 2), p2Sketch a = sketchBytes items a := by
  have hsize : (sketchMessage items).payload_size = GCM_IV_SIZE + (1183748 : Nat) := by
    rw [← length_sketchCall items]
    exact payload_size_run aesGcm zeroCtx (sketchCall_fits items)
  have hsketch : (2 * (TOTAL_MEM + 2) : Int) = (1183748 : Nat) := by rw [← payload_total]; push_cast; rfl
  have hint : toInt32 ((sketchMessage items).payload_size - GCM_IV_SIZE) = (1183748 : Nat) := by
    rw [hsize, toInt32, add_sub_cancel_left, Int.bmod_eq_of_le (by omega) (by omega)]
  have hkey : zeroCtx.key = zeroCtx.key := rfl
  obtain ⟨hout, hbytes⟩ := unpack_packed aesGcm_lawful zeroCtx (sketchCall_fits items) hkey fun _ => 0
  rw [length_sketchCall] at hout hbytes
  have hload : (sketchCall items).payload = load (sketchBytes items) 0 1183748 := by
    unfold sketchCall
    rw [payload_total]
  have hreceive : receive noOutside noMallocs (sketchMessage items) zeroCtx =
      some (unpack_message aesGcm (sketchMessage items) zeroCtx fun _ => 0).1 := by
    unfold receive
    dsimp only
    rw [hint, if_neg (by omega), hsketch, if_neg (not_not.mpr rfl)]
    exact if_neg (not_not.mpr hout)
  refine ⟨_, hreceive, fun a ha => ?_⟩
  rw [payload_total] at ha
  have hget := congrArg (·[a]?) (hbytes.trans hload)
  simp only [getElem?_load _ _ ha, Nat.zero_add, Option.some.injEq] at hget
  exact hget

theorem receive_sketchMessage (items : Nat → Item) :
    ∃ p2Sketch, receive noOutside noMallocs (sketchMessage items) zeroCtx = some p2Sketch ∧
      received p2Sketch = load items 0 (NUM_HEAVY * 2) := by
  obtain ⟨p2Sketch, hreceive, hbytes⟩ := receive_sketchBytes items
  exact ⟨p2Sketch, hreceive, received_of_agree hbytes⟩

/-- An epoch before any message. -/
def firstEpoch : Epoch := epochOf noItems fun _ => ⟨0, 0⟩

theorem listsSorted_of_received {p2Sketch : Nat → Byte} (h : (received p2Sketch).Pairwise fun x y => y.size ≤ x.size) :
    ListsSorted p2Sketch := by
  rw [received, List.pairwise_append] at h
  intro base hbase
  rcases List.mem_cons.mp hbase with rfl | hbase
  · exact h.1
  · rw [List.mem_singleton.mp hbase]
    exact h.2.1

/-! ### Ranks as flow ids -/

/-- Flows with their ranks as ids and all sizes different. -/
def descending (i : Nat) : Item := ⟨Fin.ofNat 4294967296 (i + 1), Fin.ofNat 4294967296 (32768 - i)⟩

theorem descending_pairwise : (load descending 0 (NUM_HEAVY * 2)).Pairwise fun x y => y.size < x.size := by
  have hNUM : NUM_HEAVY * 2 = 32768 := by decide
  rw [load, List.pairwise_map]
  refine List.pairwise_lt_range.imp_of_mem fun {i j} hi hj hij => ?_
  rw [List.mem_range, hNUM] at hi hj
  rw [Nat.zero_add, Nat.zero_add, Fin.lt_def]
  have h1 : (descending i).size.val = 32768 - i := Nat.mod_eq_of_lt (by omega)
  have h2 : (descending j).size.val = 32768 - j := Nat.mod_eq_of_lt (by omega)
  omega

theorem OResponseHeavyHitter_top_descending :
    ∃ p2Sketch, receive noOutside noMallocs (sketchMessage descending) zeroCtx = some p2Sketch ∧
      ∀ k ≤ NUM_HEAVY, Top k (OResponseHeavyHitter
        (OPrepareData noOutside noDraws noMallocs (sketchMessage descending) zeroCtx firstEpoch).1 k) (received p2Sketch) := by
  obtain ⟨p2Sketch, hp, hreceived⟩ := receive_sketchMessage descending
  refine ⟨p2Sketch, hp, ?_⟩
  have hsorted : (received p2Sketch).Pairwise fun x y => y.size ≤ x.size := by
    rw [hreceived]
    exact descending_pairwise.imp le_of_lt
  have haccepted : OPrepareData noOutside noDraws noMallocs (sketchMessage descending) zeroCtx firstEpoch = (_, true) :=
    OPrepareData_accepted hp
  rw [haccepted]
  refine (OResponseHeavyHitter_top_iff hp (listsSorted_of_received hsorted) haccepted).mpr fun i hi => ?_
  have hget : (received p2Sketch)[i]? = some (descending i) := by
    rw [hreceived, getElem?_load _ _ (by omega), Nat.zero_add]
  rw [rankItem_of_sorted hsorted hget]
  exact List.mem_of_getElem? hget

/-- One flow in every entry: the response names flow `1`, which no sketch carried. -/
theorem OResponseHeavyHitter_ranks :
    ∃ p2Sketch, receive noOutside noMallocs (sketchMessage fun _ => ⟨9, 5⟩) zeroCtx = some p2Sketch ∧ ListsSorted p2Sketch ∧
      (OPrepareData noOutside noDraws noMallocs (sketchMessage fun _ => ⟨9, 5⟩) zeroCtx firstEpoch).2 = true ∧
      ¬Top 1 (OResponseHeavyHitter
        (OPrepareData noOutside noDraws noMallocs (sketchMessage fun _ => ⟨9, 5⟩) zeroCtx firstEpoch).1 1) (received p2Sketch) := by
  obtain ⟨p2Sketch, hp, hreceived⟩ := receive_sketchMessage fun _ => ⟨9, 5⟩
  have hall : ∀ x ∈ received p2Sketch, x = ⟨9, 5⟩ := by
    intro x hx
    rw [hreceived] at hx
    obtain ⟨i, -, rfl⟩ := List.mem_map.mp hx
    rfl
  have hsorted : (received p2Sketch).Pairwise fun x y => y.size ≤ x.size :=
    List.pairwise_of_forall_mem_list fun x hx y hy => by rw [hall x hx, hall y hy]
  have hlists := listsSorted_of_received hsorted
  refine ⟨p2Sketch, hp, hlists, congrArg Prod.snd (OPrepareData_accepted hp), fun htop => ?_⟩
  rw [OResponseHeavyHitter_eq hp hlists (show 1 ≤ NUM_HEAVY by decide)] at htop
  have hmem := hall _ (htop.mem (List.mem_singleton_self _))
  have hflow : (1 : U32) = 9 := congrArg Item.flowID hmem
  exact absurd hflow (by decide)

/-! ### Loads -/

theorem merged_of_strict {p2Sketch : Nat → Byte} (h : (received p2Sketch).Pairwise fun x y => y.size < x.size) :
    merged p2Sketch = received p2Sketch := by
  have hle : (received p2Sketch).Pairwise fun x y => y.size ≤ x.size := h.imp le_of_lt
  have hne : (received p2Sketch).Pairwise fun x y => x.size ≠ y.size := h.imp ne_of_gt
  refine (merged_perm p2Sketch).eq_of_pairwise ?_ (merged_pairwise (listsSorted_of_received hle)) hle
  intro x y hx hy hyx hxy
  by_contra hdiff
  have hsymm : Std.Symm fun x y : Item => x.size ≠ y.size := ⟨fun _ _ h => h.symm⟩
  exact hne.forall ((merged_perm p2Sketch).mem_iff.mp hx) hy hdiff (le_antisymm hxy hyx)

/-- A bucket gets at most three of `NUM_HEAVY` consecutive flows. -/
theorem spread_le (s b : Nat) : ((List.range NUM_HEAVY).countP fun i => (1 + s + i) % BT_BUCKET_NUM == b) ≤ 3 := by
  have hthree : NUM_HEAVY / BT_BUCKET_NUM + 1 = 3 := by decide
  exact (countP_residue_le (by decide) NUM_HEAVY (1 + s) b).trans_eq hthree

theorem load_spread_le {list : Nat → Item} (hflow : ∀ i < NUM_HEAVY * 2, (list i).flowID.val = 1 + i) {s : Nat}
    (hs : s ≤ NUM_HEAVY) (b : Nat) :
    ((load list s NUM_HEAVY).countP fun x => x.flowID.val % BT_BUCKET_NUM == b) ≤ 3 := by
  rw [load, List.countP_map]
  refine (List.countP_congr fun i hi => ?_).le.trans (spread_le s b)
  rw [List.mem_range] at hi
  rw [Function.comp_apply, hflow _ (by omega), Nat.add_assoc]

theorem flowID_ne_zero_of_val {x : Item} {i : Nat} (h : x.flowID.val = 1 + i) : x.flowID ≠ 0 := by
  intro h0
  rw [h0, Nat.add_comm] at h
  exact absurd h (Nat.succ_ne_zero i).symm

theorem fits_of_le {n : Nat} {prev cur : Nat → Nat} (hprev : ∀ b, prev b ≤ 3) (hcur : ∀ b, cur b ≤ 3) :
    Fits n BT_BUCKET_MAX_NUM BT_BUCKET_MAX_SIZE prev cur := by
  have hsize : BT_BUCKET_SIZE = 16 := rfl
  have hmax : BT_BUCKET_MAX_SIZE = 32 := rfl
  have hsum : ∀ b, prev b + cur b ≤ 6 := fun b => Nat.add_le_add (hprev b) (hcur b)
  refine ⟨fun b _ => ?_, fun b _ => ?_, ?_⟩
  · exact (hprev b).trans (by omega)
  · exact (hsum b).trans (by omega)
  · rw [Finset.filter_false_of_mem fun b _ => not_lt.mpr ((hsum b).trans (by omega))]
    exact Nat.zero_le _

theorem fits_of_spread {list : Nat → Item} (hflow : ∀ i < NUM_HEAVY * 2, (list i).flowID.val = 1 + i) (rand : Nat → Int) :
    Fits BT_BUCKET_NUM BT_BUCKET_MAX_NUM BT_BUCKET_MAX_SIZE (prevLoad id rand list NUM_HEAVY BT_BUCKET_NUM)
      (curLoad id rand list NUM_HEAVY BT_BUCKET_NUM) := by
  have hne : ∀ i < NUM_HEAVY * 2, (list i).flowID ≠ 0 := fun i hi => flowID_ne_zero_of_val (hflow i hi)
  refine fits_of_le (fun b => ?_) fun b => ?_
  · rw [prevLoad_of_flows _ (by decide) _ fun i hi => hne _ (by omega)]
    exact load_spread_le hflow le_rfl b
  · rw [curLoad_of_flows _ (by decide) _ fun i hi => hne _ (by omega)]
    exact load_spread_le hflow (Nat.zero_le _) b

/-- Flows that are spread evenly: no bucket gets more than six, no row more than five. -/
theorem OPrepareData_complete_descending :
    ∃ p2Sketch, receive noOutside noMallocs (sketchMessage descending) zeroCtx = some p2Sketch ∧
      (changeCall noOutside noDraws noMallocs p2Sketch (saveHeavy firstEpoch)).isSome ∧
        (tableCall noOutside noDraws noMallocs p2Sketch (saveHeavy firstEpoch)).2.2 = true := by
  obtain ⟨p2Sketch, hp, hreceived⟩ := receive_sketchMessage descending
  refine ⟨p2Sketch, hp, (OPrepareData_complete_iff hp).mpr ⟨?_, stOverflow_id.le.trans (Nat.zero_le _)⟩
    (congrArg Prod.snd (OPrepareData_accepted hp))⟩
  have hstrict : (received p2Sketch).Pairwise fun x y => y.size < x.size := hreceived ▸ descending_pairwise
  have hitem : ∀ i < NUM_HEAVY * 2, mergedHeavy p2Sketch (saveHeavy firstEpoch) i = descending i := by
    intro i hi
    have hget := getElem?_merged p2Sketch (saveHeavy firstEpoch) hi
    rw [merged_of_strict hstrict, hreceived, getElem?_load _ _ hi, Nat.zero_add, Option.some.injEq] at hget
    exact hget.symm
  refine fits_of_spread (fun i hi => ?_) _
  rw [hitem i hi]
  have hNUM : NUM_HEAVY * 2 = 32768 := by decide
  exact (Nat.mod_eq_of_lt (by omega)).trans (Nat.add_comm i 1)

/-- One flow in every entry overflows its bucket, and the result is `true` all the same. -/
theorem OPrepareData_incomplete :
    ∃ p2Sketch, receive noOutside noMallocs (sketchMessage fun _ => ⟨9, 5⟩) zeroCtx = some p2Sketch ∧
      (OPrepareData noOutside noDraws noMallocs (sketchMessage fun _ => ⟨9, 5⟩) zeroCtx firstEpoch).2 = true ∧
      changeCall noOutside noDraws noMallocs p2Sketch (saveHeavy firstEpoch) = none := by
  obtain ⟨p2Sketch, hp, hreceived⟩ := receive_sketchMessage fun _ => ⟨9, 5⟩
  refine ⟨p2Sketch, hp, congrArg Prod.snd (OPrepareData_accepted hp), ?_⟩
  have hitem : ∀ i < NUM_HEAVY * 2, mergedHeavy p2Sketch (saveHeavy firstEpoch) i = ⟨9, 5⟩ := by
    intro i hi
    have hmem := (merged_perm p2Sketch).mem_iff.mp
      (List.mem_of_getElem? (getElem?_merged p2Sketch (saveHeavy firstEpoch) hi))
    rw [hreceived] at hmem
    obtain ⟨j, -, he⟩ := List.mem_map.mp hmem
    exact he.symm
  have hfull : prevLoad (noOutside.Hash32 (seed noDraws.btHash)) noDraws.change (mergedHeavy p2Sketch (saveHeavy firstEpoch))
      NUM_HEAVY BT_BUCKET_NUM 9 = NUM_HEAVY := by
    have hne : ∀ i < NUM_HEAVY, (mergedHeavy p2Sketch (saveHeavy firstEpoch) (NUM_HEAVY + i)).flowID ≠ 0 := by
      intro i hi
      rw [hitem _ (by omega)]
      decide
    have hlen := length_load (mergedHeavy p2Sketch (saveHeavy firstEpoch)) NUM_HEAVY NUM_HEAVY
    rw [prevLoad_of_flows _ (by decide) _ hne, List.countP_eq_length.mpr, hlen]
    intro x hx
    obtain ⟨i, hi, rfl⟩ := List.mem_map.mp hx
    rw [List.mem_range] at hi
    rw [hitem _ (by omega)]
    rfl
  by_contra hsome
  have hfit := changeCall_isSome_iff.mp (Option.isSome_iff_ne_none.mpr hsome)
  have hle := hfit.prev_le 9 (by decide)
  rw [hfull] at hle
  exact absurd hle (by decide)

end FOSketch.Heavy
