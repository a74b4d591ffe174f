import FOSketch.Light.Pipeline

/-!
# The light-part update against the plain loop

`OUpdateCUSketch_BEx` is the stages of its blocks (`OUpdateCUSketch_BEx_eq`). When the merge leaves the blocks in order,
the light part ends as the plain loop leaves it (`OUpdateCUSketch_BEx_of_merged`); with a power of two of light blocks
the odd-even merge always does.
-/

namespace FOSketch.Light

open Network Keyed

def blockMerging : Merging Block64 Bid where
  key := Block64.blockID
  join x y := OMaxSetMemCL x y false
  retire b := { b with blockID := DUMMY_FLAG }

theorem blockMerging_lawful : blockMerging.Lawful Block64.data where
  key_join x y h := by
    change vpmaxub x.blockID y.blockID = x.blockID
    rw [show y.blockID = x.blockID from h.symm, vpmaxub_self]
  val_join _ _ := rfl
  key_retire _ := rfl

theorem greater_SP_compares : Compares greater_SP blockMerging.key := fun _ _ => rfl

theorem OMaxSetMemCL_eq (px py : Block64) (cond : Bool) : OMaxSetMemCL px py cond = blockMerging.take px py cond := by
  cases cond <;> rfl

theorem move_id_eq (b : Block64) (cond : Bool) :
    { b with blockID := OMove b.blockID DUMMY_FLAG cond } = if cond then b else blockMerging.retire b := by
  cases cond <;> rfl

theorem OMax_eq (dump : List Block64) (tmpB : Block64) (cond : Bool) :
    OMax dump tmpB cond = maxScan blockMerging dump tmpB cond := by
  induction dump generalizing tmpB cond with
  | nil => rfl
  | cons b dump ih =>
    cases dump with
    | nil => rw [OMax, maxScan, OMaxSetMemCL_eq]
    | cons c dump =>
      rw [OMax, maxScan, ih, OMaxSetMemCL_eq]
      exact congrArg (· :: _) (move_id_eq _ _)

/-! ## The blocks on entry -/

/-- The light block `i`, written over what the stack holds. -/
def lightBlock (pLight : Nat → Byte) (i : Nat) (b : Block64) : Block64 :=
  { b with blockID := toBid i, data := fun j => pLight (i * nRecord + j) }

theorem getElem?_fillLight (pLight : Nat → Byte) (is : List Nat) (dump : List Block64) (k : Nat) :
    (fillLight pLight is dump)[k]? = if k ∈ is then dump[k]?.map (lightBlock pLight k) else dump[k]? := by
  induction is generalizing dump with
  | nil => rw [if_neg List.not_mem_nil]; rfl
  | cons i is ih =>
    rw [fillLight, List.foldl_cons, ← fillLight, ih, List.getElem?_modify]
    by_cases hk : i = k
    · subst hk
      simp only [if_true, Option.map_eq_map, if_pos List.mem_cons_self]
      split_ifs
      · rw [Option.map_map]; rfl
      · rfl
    · simp only [if_neg hk, Option.map_eq_map, Option.map_id_fun', id]
      exact if_congr ⟨List.mem_cons_of_mem _, fun h => (List.mem_cons.mp h).resolve_left (Ne.symm hk)⟩ rfl rfl

def lightBlocks (pLight : Nat → Byte) (stack : Nat → Block64) (n : Nat) : List Block64 :=
  (List.range n).map fun i => lightBlock pLight i (stack i)

theorem fillLight_eq (pLight : Nat → Byte) (stack : Nat → Block64) {n : Nat} {is : List Nat}
    (h : ∀ i, i ∈ is ↔ i < n) : fillLight pLight is ((List.range n).map stack) = lightBlocks pLight stack n := by
  refine List.ext_getElem? fun k => ?_
  rw [getElem?_fillLight, lightBlocks, List.getElem?_map, List.getElem?_map]
  by_cases hk : k < n
  · rw [if_pos ((h k).mpr hk), List.getElem?_range hk]; rfl
  · rw [if_neg (mt (h k).mp hk), List.getElem?_eq_none (by rw [List.length_range]; omega)]; rfl

@[simp] theorem length_lightBlocks (pLight : Nat → Byte) (stack : Nat → Block64) (n : Nat) :
    (lightBlocks pLight stack n).length = n := by
  rw [lightBlocks, List.length_map, List.length_range]

theorem length_fillHeavy (hash : U32 → U32) (numLight : Nat) (pHeavy : List Item) (stack : Nat → Block64) (n : Nat) :
    (fillHeavy hash numLight pHeavy stack n).length = if n < pHeavy.length then pHeavy.length else n := by
  rw [fillHeavy, List.length_append, List.length_map, List.length_zipIdx, List.length_map, List.length_range']
  split_ifs <;> omega

theorem OUpdateCUSketch_BEx_eq (hash : U32 → U32) (stack : Nat → Block64) (tmpB : Block64) (pLight : Nat → Byte) (n : Nat)
    (pHeavy : List Item) : OUpdateCUSketch_BEx hash stack tmpB pLight (60 * n) pHeavy =
      copyBack pLight (lightStage blockMerging greater_SP (testPo2 n) (merged greater_SP (testPo2 n)
        (lightBlocks pLight stack n) (heavyStage blockMerging greater_SP
          (testPo2 (if n < pHeavy.length then pHeavy.length else n))
          (fillHeavy hash (60 * n) pHeavy (fun i => stack (n + i)) n) pHeavy.length tmpB)) n tmpB) n := by
  have hn : 60 * n / nRecord = n := Nat.mul_div_cancel_left n (by decide)
  have hlight : (if testPo2 n then fillLight pLight (List.range n) ((List.range n).map stack)
      else fillLight pLight (List.range n).reverse ((List.range n).map stack)) = lightBlocks pLight stack n := by
    rw [fillLight_eq pLight stack fun i => List.mem_range,
      fillLight_eq pLight stack fun i => List.mem_reverse.trans List.mem_range, ite_self]
  unfold OUpdateCUSketch_BEx
  dsimp only
  rw [hn, hlight, OMax_eq, OMax_eq, maxScan_true _ _ _ tmpB]
  unfold lightStage merged heavyStage scanFirst
  dsimp only
  rw [length_lightBlocks, List.length_append, length_maxScan, ← List.length_append, List.take_append_drop,
    (sortASC_perm ..).length_eq, length_fillHeavy]

theorem val_toBid {k n : Nat} (hn : n ≤ 65535) (hk : k < n) : (toBid k).val = k := by
  rw [toBid_val, Nat.mod_eq_of_lt (by omega)]

theorem toBid_inj {i k : Nat} (hi : i < 65536) (hk : k < 65536) : toBid i = toBid k ↔ i = k := by
  rw [Fin.ext_iff, toBid_val, toBid_val, Nat.mod_eq_of_lt hi, Nat.mod_eq_of_lt hk]

theorem map_key_lightBlocks (pLight : Nat → Byte) (stack : Nat → Block64) (n : Nat) :
    (lightBlocks pLight stack n).map blockMerging.key = (List.range n).map toBid := by
  rw [lightBlocks, List.map_map]; rfl

def cell (hash : U32 → U32) (numLight : Nat) (item : Item) : Nat := (hash item.flowID).val % numLight

theorem fillHeavy_hit (hash : U32 → U32) {n : Nat} (h0 : 0 < n) (pHeavy : List Item) (stack : Nat → Block64) (num : Nat) :
    ∀ x ∈ (fillHeavy hash (60 * n) pHeavy stack num).take pHeavy.length, x.blockID.val < n := by
  rw [fillHeavy, List.take_left' (by rw [List.length_map, List.length_zipIdx])]
  intro x hx
  obtain ⟨p, -, rfl⟩ := List.mem_map.mp hx
  have hlt : (hash p.1.flowID).val % (60 * n) < 60 * n := Nat.mod_lt _ (by omega)
  change (toBid ((hash p.1.flowID).val % (60 * n) / 60)).val < n
  rw [toBid_val]
  omega

theorem fillHeavy_spare (hash : U32 → U32) (numLight : Nat) (pHeavy : List Item) (stack : Nat → Block64) (num : Nat) :
    ∀ x ∈ (fillHeavy hash numLight pHeavy stack num).drop pHeavy.length, x.blockID = ⊤ := by
  rw [fillHeavy, List.drop_left' (by rw [List.length_map, List.length_zipIdx])]
  intro x hx
  obtain ⟨i, -, rfl⟩ := List.mem_map.mp hx
  rfl

theorem filled (hash : U32 → U32) (stack stack' : Nat → Block64) (pLight : Nat → Byte) {n : Nat} (h0 : 0 < n)
    (hn : n ≤ 65535) {pHeavy : List Item} (hH : pHeavy.length ≤ 2 ^ 30) :
    Filled blockMerging (lightBlocks pLight stack n) (fillHeavy hash (60 * n) pHeavy stack' n) pHeavy.length where
  ids := by rw [map_key_lightBlocks, length_lightBlocks]
  few := by rwa [length_lightBlocks]
  room := by rw [length_lightBlocks, length_fillHeavy]; split_ifs <;> omega
  long := by rw [length_fillHeavy]; split_ifs <;> omega
  hit := by
    rw [length_lightBlocks]
    exact fillHeavy_hit hash h0 pHeavy stack' n
  spare := fillHeavy_spare hash (60 * n) pHeavy stack' n

/-! ## What the blocks hold -/

theorem gather_lightBlocks (pLight : Nat → Byte) (stack : Nat → Block64) {n : Nat} (hn : n ≤ 65535) {k : Nat} (hk : k < n) :
    gather blockMerging.key Block64.data (lightBlocks pLight stack n) (toBid k) =
      fun j : Fin 60 => pLight (k * nRecord + j.val) := by
  have hmem : lightBlock pLight k (stack k) ∈ lightBlocks pLight stack n :=
    List.mem_map_of_mem (List.mem_range.mpr hk)
  have hone : ((lightBlocks pLight stack n).map blockMerging.key).count
      (blockMerging.key (lightBlock pLight k (stack k))) = 1 := by
    rw [map_key_lightBlocks]
    exact count_ids hn hk
  exact gather_of_count_one Block64.data hmem hone

/-- The largest offer for the counter `c`. -/
def bestOffer (hash : U32 → U32) (numLight : Nat) (pHeavy : List Item) (c : Nat) : Byte :=
  (pHeavy.filter fun item => decide (cell hash numLight item = c)).foldr (fun item m => max (offer item) m) 0

theorem counterMax_eq (hash : U32 → U32) (pLight : Nat → Byte) (numLight : Nat) (pHeavy : List Item) (c : Nat) :
    counterMax hash pLight numLight pHeavy c = max (pLight c) (bestOffer hash numLight pHeavy c) := by
  unfold counterMax bestOffer cell
  generalize pLight c = v
  induction pHeavy.filter _ generalizing v with
  | nil => exact (max_eq_left (Fin.zero_le v)).symm
  | cons item l ih => rw [List.foldl_cons, List.foldr_cons, ih, max_assoc]

theorem heavyBlock_data (hash : U32 → U32) (numLight : Nat) (item : Item) (b : Block64) (j : Fin 60) :
    (heavyBlock hash numLight item b).data j = if cell hash numLight item % 60 = j then offer item else 0 := by
  have hcast : toByte (OMove 255 item.size (decide (255 < item.size))).val = offer item := by
    rw [OMove, offer, ← clamp_val]
    simp only [decide_eq_true_eq]
  change OMove (toByte (OMove 255 item.size (decide (255 < item.size))).val) 0
    (decide (j.val = cell hash numLight item % 60)) = _
  rw [hcast, OMove]
  exact if_congr (by rw [decide_eq_true_eq]; exact eq_comm) rfl rfl

theorem gather_heavy (hash : U32 → U32) {n : Nat} (h0 : 0 < n) (hn : n ≤ 65535) (pHeavy : List Item)
    (stack : Nat → Block64) {k : Nat} (hk : k < n) (j : Fin 60) (s : Nat) :
    gather blockMerging.key Block64.data
      ((pHeavy.zipIdx s).map fun p => heavyBlock hash (60 * n) p.1 (stack p.2)) (toBid k) j =
        bestOffer hash (60 * n) pHeavy (k * 60 + j) := by
  induction pHeavy generalizing s with
  | nil => rfl
  | cons item pHeavy ih =>
    have hlt : cell hash (60 * n) item < 60 * n := Nat.mod_lt _ (by omega)
    have hkey : blockMerging.key (heavyBlock hash (60 * n) item (stack s)) = toBid (cell hash (60 * n) item / 60) := rfl
    have hinj := toBid_inj (i := cell hash (60 * n) item / 60) (k := k) (by omega) (by omega)
    have hj := j.isLt
    rw [List.zipIdx_cons, List.map_cons, bestOffer]
    by_cases hq : cell hash (60 * n) item / 60 = k
    · rw [gather_cons_of_eq (hkey.trans (hinj.mpr hq)), Pi.sup_apply, ih, heavyBlock_data]
      by_cases hc : cell hash (60 * n) item = k * 60 + j
      · rw [if_pos (by omega), List.filter_cons_of_pos (by rwa [decide_eq_true_eq]), List.foldr_cons]; rfl
      · rw [if_neg (by omega), List.filter_cons_of_neg (by rwa [decide_eq_true_eq])]
        exact max_eq_right (Fin.zero_le _)
    · rw [gather_cons_of_ne (hkey.trans_ne (mt hinj.mp hq)), List.filter_cons_of_neg (by rw [decide_eq_true_eq]; omega)]
      exact ih (s + 1)

theorem gather_fillHeavy (hash : U32 → U32) {n : Nat} (h0 : 0 < n) (hn : n ≤ 65535) (pHeavy : List Item)
    (stack : Nat → Block64) (num : Nat) {k : Nat} (hk : k < n) (j : Fin 60) :
    gather blockMerging.key Block64.data (fillHeavy hash (60 * n) pHeavy stack num) (toBid k) j =
      bestOffer hash (60 * n) pHeavy (k * 60 + j) := by
  have hspare : gather blockMerging.key Block64.data ((List.range' pHeavy.length (num - pHeavy.length)).map fun i =>
      { stack i with blockID := DUMMY_FLAG }) (toBid k) = ⊥ := by
    refine gather_of_forall_ne fun x hx => ?_
    obtain ⟨i, -, rfl⟩ := List.mem_map.mp hx
    exact (toBid_ne_top (by omega)).symm
  rw [fillHeavy, gather_append, hspare, sup_bot_eq, gather_heavy hash h0 hn pHeavy stack hk j]

theorem copyBack_some (pLight : Nat → Byte) {dump : List Block64} {n a : Nat} {b : Block64} (ha : a / 60 < n)
    (h : dump[a / 60]? = some b) : copyBack pLight dump n a = b.data ⟨a % 60, Nat.mod_lt _ (by decide)⟩ := by
  have htake : (dump.take n)[a / nRecord]? = some b := (List.getElem?_take_of_lt ha).trans h
  unfold copyBack
  rw [htake]
  rfl

theorem copyBack_none (pLight : Nat → Byte) (dump : List Block64) {n a : Nat} (ha : n ≤ a / 60) :
    copyBack pLight dump n a = pLight a := by
  have htake : (dump.take n)[a / nRecord]? = none := by
    rw [List.getElem?_eq_none]
    exact (List.length_take_le _ _).trans ha
  unfold copyBack
  rw [htake]

/-! ## From blocks in order to the plain loop -/

section Run
variable (hash : U32 → U32) (stack : Nat → Block64) (tmpB : Block64) (pLight : Nat → Byte) (n : Nat) (pHeavy : List Item)

def heavyBlocks : List Block64 :=
  heavyStage blockMerging greater_SP (testPo2 (if n < pHeavy.length then pHeavy.length else n))
    (fillHeavy hash (60 * n) pHeavy (fun i => stack (n + i)) n) pHeavy.length tmpB

def mergedBlocks : List Block64 :=
  mergeASC greater_SP (testPo2 n) (mergeInput (lightBlocks pLight stack n) (heavyBlocks hash stack tmpB n pHeavy)) (n * 2)

variable {n} {pHeavy}

theorem length_le_heavyBlocks : n ≤ (heavyBlocks hash stack tmpB n pHeavy).length := by
  rw [heavyBlocks, length_heavyStage, length_fillHeavy]
  split_ifs <;> omega

theorem length_input :
    (mergeInput (lightBlocks pLight stack n) (heavyBlocks hash stack tmpB n pHeavy)).length = n * 2 := by
  rw [length_mergeInput, length_lightBlocks]
  rw [length_lightBlocks]
  exact length_le_heavyBlocks hash stack tmpB

theorem length_mergedBlocks : (mergedBlocks hash stack tmpB pLight n pHeavy).length = n * 2 := by
  rw [mergedBlocks, (mergeASC_perm ..).length_eq, length_input]

/-- The update, from the blocks after the merge on. -/
theorem OUpdateCUSketch_BEx_merged (hn : n ≤ 65535) : OUpdateCUSketch_BEx hash stack tmpB pLight (60 * n) pHeavy =
    copyBack pLight (lightStage blockMerging greater_SP (testPo2 n) (mergedBlocks hash stack tmpB pLight n pHeavy ++
      (heavyBlocks hash stack tmpB n pHeavy).drop n) n tmpB) n := by
  have hmerged := merged_eq greater_SP (lightBlocks pLight stack n) (heavyBlocks hash stack tmpB n pHeavy)
    (by rw [length_lightBlocks]; omega) (by rw [length_lightBlocks]; exact length_le_heavyBlocks hash stack tmpB)
    (show testPo2 n = testPo2 _ by rw [length_lightBlocks])
  rw [OUpdateCUSketch_BEx_eq, ← heavyBlocks, hmerged, length_lightBlocks, ← mergedBlocks]

variable (h0 : 0 < n) (hn : n ≤ 65535) (hH : pHeavy.length ≤ 2 ^ 30)
include h0 hn hH

theorem count_heavyBlocks {b : Bid} (hb : b ≠ ⊤) :
    ((heavyBlocks hash stack tmpB n pHeavy).map blockMerging.key).count b =
      if b ∈ (fillHeavy hash (60 * n) pHeavy (fun i => stack (n + i)) n).map blockMerging.key then 1 else 0 := by
  refine count_heavyStage blockMerging_lawful greater_SP_compares
    (filled hash stack (fun i => stack (n + i)) (fun _ => 0) h0 hn hH) ?_ tmpB hb
  rw [length_fillHeavy]

theorem heavyBlocks_pairwise :
    (heavyBlocks hash stack tmpB n pHeavy).Pairwise fun x y => x.blockID ≤ y.blockID := by
  refine heavyStage_pairwise greater_SP_compares
    (filled hash stack (fun i => stack (n + i)) (fun _ => 0) h0 hn hH) ?_ tmpB
  rw [length_fillHeavy]

theorem drop_heavyBlocks : ∀ x ∈ (heavyBlocks hash stack tmpB n pHeavy).drop n, x.blockID = ⊤ := by
  have h := filled hash stack (fun i => stack (n + i)) (fun _ => 0) h0 hn hH
  have := drop_heavyStage_eq_top blockMerging_lawful greater_SP_compares h
    (show testPo2 (if n < pHeavy.length then pHeavy.length else n) = testPo2 _ by rw [length_fillHeavy]) tmpB
  rwa [length_lightBlocks] at this

theorem gather_heavyBlocks {k : Nat} (hk : k < n) (j : Fin 60) :
    gather blockMerging.key Block64.data (heavyBlocks hash stack tmpB n pHeavy) (toBid k) j =
      bestOffer hash (60 * n) pHeavy (k * 60 + j) := by
  rw [heavyBlocks, gather_heavyStage blockMerging_lawful greater_SP_compares
    (filled hash stack (fun i => stack (n + i)) (fun _ => 0) h0 hn hH) (by rw [length_fillHeavy]) tmpB
    (toBid_ne_top (by omega))]
  exact gather_fillHeavy hash h0 hn pHeavy _ n hk j

theorem mem_mergedBlocks {b : Bid} (hb : b ∈ (mergedBlocks hash stack tmpB pLight n pHeavy).map blockMerging.key) :
    b.val < n ∨ b = ⊤ := by
  rw [mergedBlocks, ((mergeASC_perm ..).map blockMerging.key).mem_iff, mergeInput, List.map_append, List.mem_append,
    map_key_lightBlocks] at hb
  rcases hb with hb | hb
  · obtain ⟨i, hi, rfl⟩ := List.mem_map.mp hb
    rw [List.mem_range] at hi
    exact .inl (by rwa [val_toBid hn hi])
  · obtain ⟨x, hx, rfl⟩ := List.mem_map.mp hb
    by_contra hnot
    rw [not_or] at hnot
    have hcount := count_heavyBlocks hash stack tmpB h0 hn hH hnot.2
    have hpos : 0 < ((heavyBlocks hash stack tmpB n pHeavy).map blockMerging.key).count (blockMerging.key x) :=
      List.count_pos_iff.mpr (List.mem_map_of_mem (List.mem_of_mem_take hx))
    split_ifs at hcount with hmem
    · have h := (filled hash stack (fun i => stack (n + i)) (fun _ => 0) h0 hn hH).lt_or_top hmem
      rw [length_lightBlocks] at h
      exact h.elim hnot.1 hnot.2
    · omega

theorem gather_mergedBlocks {k : Nat} (hk : k < n) (j : Fin 60) :
    gather blockMerging.key Block64.data (mergedBlocks hash stack tmpB pLight n pHeavy) (toBid k) j =
      counterMax hash pLight (60 * n) pHeavy (k * 60 + j) := by
  rw [mergedBlocks, gather_perm (mergeASC_perm ..), mergeInput, gather_append, Pi.sup_apply, gather_lightBlocks pLight _ hn hk,
    length_lightBlocks, gather_drop_top blockMerging.key (toBid_ne_top (by omega)) (drop_heavyBlocks hash stack tmpB h0 hn hH),
    gather_heavyBlocks hash stack tmpB h0 hn hH hk, counterMax_eq]
  rfl

/-- When the merge leaves the blocks in order, the light part ends as the plain loop leaves it. -/
theorem OUpdateCUSketch_BEx_of_merged
    (hs : (mergedBlocks hash stack tmpB pLight n pHeavy).Pairwise fun x y => x.blockID ≤ y.blockID) :
    OUpdateCUSketch_BEx hash stack tmpB pLight (60 * n) pHeavy = UpdateCUSketch_NO hash pLight (60 * n) pHeavy := by
  rw [UpdateCUSketch_NO_eq, OUpdateCUSketch_BEx_merged hash stack tmpB pLight hn]
  have hval := fun k (hk : k < n) => lightStage_val blockMerging_lawful greater_SP_compares
    (length_mergedBlocks hash stack tmpB pLight) hn rfl hs (fun k hk => by
      rw [mergedBlocks, ((mergeASC_perm ..).map blockMerging.key).mem_iff, mergeInput, List.map_append, List.mem_append,
        map_key_lightBlocks]
      exact .inl (List.mem_map_of_mem (List.mem_range.mpr hk)))
    (fun b hb => mem_mergedBlocks hash stack tmpB pLight h0 hn hH hb) tmpB hk
    (r := (heavyBlocks hash stack tmpB n pHeavy).drop n)
  funext a
  by_cases ha : a / 60 < n
  · obtain ⟨x, hx, -, hdata⟩ := hval (a / 60) ha
    rw [copyBack_some pLight ha hx, hdata, gather_mergedBlocks hash stack tmpB pLight h0 hn hH ha]
    congr 1
    dsimp only
    omega
  · rw [copyBack_none pLight _ (not_lt.mp ha), counterMax_of_le hash pLight (by omega) (by omega)]

end Run

end FOSketch.Light
