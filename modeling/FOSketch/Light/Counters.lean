import FOSketch.Light.Refines

/-!
# The light-part update on single counters

`OUpdateCUSketch` sorts one record for every counter and every heavy item by counter, lets the records of one counter
gather in the last of them, and sorts again. `UpdateCUSketch_Scan` walks all counters for every item. Both leave the light
part as the plain loop does (`updates_agree`).
-/

namespace FOSketch

def greaterFlowID (pi pj : Item) : Bool := decide (pj.flowID < pi.flowID)

/-- The loop under `OMax` with the entry behind it. -/
def OMaxItems : List Item → U32 → Bool → List Item
  | [], _, _ => []
  | [x], curMax, cond =>
    let tmpMax := OMove x.size curMax (decide (curMax < x.size))
    [{ x with size := OMove x.size tmpMax cond }]
  | x :: y :: dump, curMax, cond =>
    let tmpMax := OMove x.size curMax (decide (curMax < x.size))
    let curMax := OMove x.size tmpMax cond
    let cond := decide (x.flowID < y.flowID)
    ⟨OMove x.flowID DUMMY_FLOW cond, curMax⟩ :: OMaxItems (y :: dump) curMax cond

def lightItem (pLight : Nat → Byte) (i : Nat) : Item := ⟨Fin.ofNat 4294967296 i, Fin.ofNat 4294967296 (pLight i).val⟩

def heavyItem (hash : U32 → U32) (numLight : Nat) (item : Item) : Item :=
  let cnt := item.size
  ⟨Fin.ofNat 4294967296 ((hash item.flowID).val % numLight), OMove 255 cnt (decide (255 < cnt))⟩

/-- `OUpdateCUSketch`; `stack` is what the array `dump` holds on entry. -/
def OUpdateCUSketch (hash : U32 → U32) (stack : Nat → Item) (pLight : Nat → Byte) (numLight : Nat) (pHeavy : List Item) :
    Nat → Byte :=
  let numHeavy := pHeavy.length
  let length := (numLight + numHeavy) % 4294967296
  let level := toByte (Nat.clog 2 length)
  let length := 2 ^ level.val
  let spare := (List.range' (numLight + numHeavy) (length - (numLight + numHeavy))).map fun i =>
    { stack i with flowID := DUMMY_FLOW }
  let dump := (List.range numLight).map (lightItem pLight) ++ pHeavy.map (heavyItem hash numLight) ++ spare
  let dump := BitonicSorter.sort greaterFlowID dump length
  let dump := OMaxItems (dump.take (numLight + numHeavy)) 0 true ++ dump.drop (numLight + numHeavy)
  let dump := BitonicSorter.sort greaterFlowID dump length
  fun i =>
    match (dump.take numLight)[i]? with
    | some x => toByte x.size.val
    | none => pLight i

def UpdateCUSketch_Scan (hash : U32 → U32) (pLight : Nat → Byte) (numLight : Nat) (pHeavy : List Item) : Nat → Byte :=
  pHeavy.foldl (fun pLight item =>
    let idx := (hash item.flowID).val % numLight
    let size := item.size
    let size := if 255 < size then 255 else size
    (List.range numLight).foldl (fun pLight j =>
      let cond := decide (j = idx)
      let max := toByte (OMove size.val (pLight j).val (decide ((pLight j).val < size.val)))
      Function.update pLight idx (OMove max (pLight idx) cond)) pLight) pLight

namespace Light

open Network Keyed

/-! ## The scan over all counters -/

/-- A walk over the counters that changes one of them when it comes there. -/
theorem foldl_update_one (f : Byte → Byte) (idx : Nat) {js : List Nat} (hjs : js.Nodup) (pLight : Nat → Byte) :
    js.foldl (fun pLight j => Function.update pLight idx (if j = idx then f (pLight j) else pLight idx)) pLight =
      if idx ∈ js then Function.update pLight idx (f (pLight idx)) else pLight := by
  induction js generalizing pLight with
  | nil => rfl
  | cons j js ih =>
    obtain ⟨hj, hjs⟩ := List.nodup_cons.mp hjs
    rw [List.foldl_cons, ih hjs]
    by_cases hij : j = idx
    · subst hij
      rw [if_neg hj, if_pos List.mem_cons_self, if_pos rfl]
    · rw [if_neg hij, Function.update_eq_self]
      exact if_congr ⟨List.mem_cons_of_mem j, fun h => (List.mem_cons.mp h).resolve_left (Ne.symm hij)⟩ rfl rfl

theorem UpdateCUSketch_Scan_eq (hash : U32 → U32) (pLight : Nat → Byte) {numLight : Nat} (h0 : 1 ≤ numLight)
    (pHeavy : List Item) :
    UpdateCUSketch_Scan hash pLight numLight pHeavy = UpdateCUSketch_NO hash pLight numLight pHeavy := by
  unfold UpdateCUSketch_Scan UpdateCUSketch_NO
  congr 1
  funext pLight item
  have hidx : (hash item.flowID).val % numLight < numLight := Nat.mod_lt _ h0
  dsimp only
  generalize (hash item.flowID).val % numLight = idx at hidx
  generalize (if 255 < item.size then (255 : U32) else item.size).val = size
  have hwalk := foldl_update_one (fun b => toByte (OMove size b.val (decide (b.val < size)))) idx
    (List.nodup_range (n := numLight)) pLight
  rw [if_pos (List.mem_range.mpr hidx)] at hwalk
  simp only [OMove, decide_eq_true_eq] at hwalk ⊢
  rw [hwalk]
  by_cases hlt : (pLight idx).val < size
  · rw [if_pos hlt, if_pos hlt]
  · have hself : toByte (pLight idx).val = pLight idx := Fin.ext (Nat.mod_eq_of_lt (pLight idx).isLt)
    rw [if_neg hlt, if_neg hlt, hself, Function.update_eq_self]

/-! ## The sorted records -/

/-- The scan `OMaxItems` on single records. -/
def itemMerging : Merging Item U32 where
  key := Item.flowID
  join x y := { x with size := max x.size y.size }
  retire x := { x with flowID := DUMMY_FLOW }

theorem itemMerging_lawful : itemMerging.Lawful fun x => x.size.val where
  key_join _ _ _ := rfl
  val_join _ _ := Fin.val_strictMono.monotone.map_max
  key_retire _ := rfl

theorem greaterFlowID_compares : Compares greaterFlowID itemMerging.key := fun _ _ => rfl

theorem OMove_max (x y : U32) : OMove x y (decide (y < x)) = max x y := by
  rw [OMove, max_comm, max_def_lt]
  simp only [decide_eq_true_eq]

theorem take_item (x prev : Item) (cond : Bool) :
    itemMerging.take x prev cond =
      { x with size := OMove x.size (OMove x.size prev.size (decide (prev.size < x.size))) cond } := by
  rw [OMove_max]
  cases cond <;> rfl

theorem OMaxItems_eq (dump : List Item) (prev : Item) (cond : Bool) :
    OMaxItems dump prev.size cond = maxScan itemMerging dump prev cond := by
  induction dump generalizing prev cond with
  | nil => rfl
  | cons x dump ih =>
    cases dump with
    | nil => rw [OMaxItems, maxScan, take_item]
    | cons y dump =>
      rw [OMaxItems, maxScan, ← ih, take_item]
      apply congrArg (· :: _)
      change _ = if decide (x.flowID < y.flowID) then _ else _
      cases decide (x.flowID < y.flowID) <;> rfl

def counterIds (numLight : Nat) : List U32 := (List.range numLight).map (Fin.ofNat 4294967296)

section Ids
variable {numLight k : Nat} (hn : numLight ≤ 2 ^ 30)
include hn

theorem counterIds_pairwise : (counterIds numLight).Pairwise (· < ·) := by
  rw [counterIds, List.pairwise_map]
  refine (List.pairwise_lt_range (n := numLight)).imp_of_mem fun {i j} hi hj hij => ?_
  rw [List.mem_range] at hi hj
  rw [Fin.lt_def, Fin.val_ofNat, Fin.val_ofNat]
  omega

theorem counterId_ne_top (hk : k < numLight) : Fin.ofNat 4294967296 k ≠ ⊤ := by
  intro h
  have hval := congrArg Fin.val h
  rw [Fin.val_ofNat, Fin.top_eq_last, Fin.val_last] at hval
  omega

theorem top_notMem_counterIds : ⊤ ∉ counterIds numLight := by
  rw [counterIds, List.mem_map]
  rintro ⟨i, hi, htop⟩
  exact counterId_ne_top hn (List.mem_range.mp hi) htop

theorem counterId_inj {i : Nat} (hi : i < numLight) (hk : k < numLight) :
    Fin.ofNat 4294967296 i = Fin.ofNat 4294967296 k ↔ i = k := by
  rw [Fin.ext_iff, Fin.val_ofNat, Fin.val_ofNat]
  omega

end Ids

theorem getElem?_counterIds {numLight k : Nat} (hk : k < numLight) :
    (counterIds numLight)[k]? = some (Fin.ofNat 4294967296 k) := by
  rw [counterIds, List.getElem?_map, List.getElem?_range hk]
  rfl

theorem heavyItem_size (hash : U32 → U32) (numLight : Nat) (item : Item) :
    (heavyItem hash numLight item).size.val = (offer item).val := by
  rw [offer_val, ← clamp_val]
  unfold heavyItem OMove
  simp only [decide_eq_true_eq]

theorem gather_lightItems (pLight : Nat → Byte) {numLight : Nat} (hn : numLight ≤ 2 ^ 30) {k : Nat} (hk : k < numLight) :
    gather itemMerging.key (fun x => x.size.val) ((List.range numLight).map (lightItem pLight))
      (Fin.ofNat 4294967296 k) = (pLight k).val := by
  have hmem : lightItem pLight k ∈ (List.range numLight).map (lightItem pLight) :=
    List.mem_map_of_mem (List.mem_range.mpr hk)
  have hone : (((List.range numLight).map (lightItem pLight)).map itemMerging.key).count
      (itemMerging.key (lightItem pLight k)) = 1 := by
    have hnodup : (counterIds numLight).Nodup := (counterIds_pairwise hn).imp ne_of_lt
    have hkth : Fin.ofNat 4294967296 k ∈ counterIds numLight := List.mem_map_of_mem (List.mem_range.mpr hk)
    rw [List.map_map]
    exact List.count_eq_one_of_mem hnodup hkth
  apply (gather_of_count_one (fun x => x.size.val) hmem hone).trans
  exact Nat.mod_eq_of_lt ((pLight k).isLt.trans (by norm_num))

/-- The records on entry: a light one for each counter, the heavy ones, and spare ones up to a power of two. -/
def itemRecords (hash : U32 → U32) (stack : Nat → Item) (pLight : Nat → Byte) (numLight : Nat) (pHeavy : List Item)
    (length : Nat) : List Item :=
  (List.range numLight).map (lightItem pLight) ++ pHeavy.map (heavyItem hash numLight) ++
    (List.range' (numLight + pHeavy.length) (length - (numLight + pHeavy.length))).map fun i =>
      { stack i with flowID := DUMMY_FLOW }

section Records
variable (hash : U32 → U32) (stack : Nat → Item) (pLight : Nat → Byte) {numLight : Nat} (pHeavy : List Item)

theorem length_itemRecords {length : Nat} (h : numLight + pHeavy.length ≤ length) :
    (itemRecords hash stack pLight numLight pHeavy length).length = length := by
  rw [itemRecords, List.length_append, List.length_append, List.length_map, List.length_range, List.length_map,
    List.length_map, List.length_range']
  omega

theorem countP_itemRecords (length : Nat) :
    (itemRecords hash stack pLight numLight pHeavy length).countP (fun x => decide (itemMerging.key x ≠ ⊤)) ≤
      numLight + pHeavy.length := by
  have hspare : ((List.range' (numLight + pHeavy.length) (length - (numLight + pHeavy.length))).map fun i =>
      { stack i with flowID := DUMMY_FLOW }).countP (fun x => decide (itemMerging.key x ≠ ⊤)) = 0 := by
    rw [List.countP_eq_zero]
    intro x hx
    obtain ⟨i, -, rfl⟩ := List.mem_map.mp hx
    exact fun h => of_decide_eq_true h rfl
  rw [itemRecords, List.countP_append, hspare, Nat.add_zero]
  refine List.countP_le_length.trans (le_of_eq ?_)
  rw [List.length_append, List.length_map, List.length_range, List.length_map]

variable (h0 : 1 ≤ numLight) (hn : numLight ≤ 2 ^ 30)
include h0

theorem mem_keys_itemRecords (length : Nat) {b : U32} (hb : b ≠ ⊤) :
    b ∈ (itemRecords hash stack pLight numLight pHeavy length).map itemMerging.key ↔ b ∈ counterIds numLight := by
  have hlight : ((List.range numLight).map (lightItem pLight)).map itemMerging.key = counterIds numLight := by
    rw [List.map_map]
    rfl
  rw [itemRecords, List.map_append, List.map_append, hlight, List.mem_append, List.mem_append]
  constructor
  · rintro ((h | h) | h)
    · exact h
    · rw [List.map_map, List.mem_map] at h
      obtain ⟨item, -, rfl⟩ := h
      exact List.mem_map_of_mem (List.mem_range.mpr (Nat.mod_lt _ h0))
    · rw [List.map_map, List.mem_map] at h
      obtain ⟨i, -, rfl⟩ := h
      exact absurd rfl hb
  · exact fun h => Or.inl (Or.inl h)

include hn

theorem gather_heavyItems {k : Nat} (hk : k < numLight) :
    gather itemMerging.key (fun x => x.size.val) (pHeavy.map (heavyItem hash numLight)) (Fin.ofNat 4294967296 k) =
      (bestOffer hash numLight pHeavy k).val := by
  induction pHeavy with
  | nil => rfl
  | cons item pHeavy ih =>
    have hkey : itemMerging.key (heavyItem hash numLight item) = Fin.ofNat 4294967296 (cell hash numLight item) := rfl
    have hinj := counterId_inj hn (Nat.mod_lt (hash item.flowID).val h0) hk
    rw [List.map_cons, bestOffer]
    by_cases hc : cell hash numLight item = k
    · rw [gather_cons_of_eq (hkey.trans (hinj.mpr hc)), ih, List.filter_cons_of_pos (by rwa [decide_eq_true_eq]),
        List.foldr_cons, heavyItem_size]
      exact (Fin.val_strictMono.monotone.map_max).symm
    · rw [gather_cons_of_ne (hkey.trans_ne (mt hinj.mp hc)), ih, List.filter_cons_of_neg (by rwa [decide_eq_true_eq])]
      rfl

theorem gather_itemRecords (length : Nat) {k : Nat} (hk : k < numLight) :
    gather itemMerging.key (fun x => x.size.val) (itemRecords hash stack pLight numLight pHeavy length)
      (Fin.ofNat 4294967296 k) = (counterMax hash pLight numLight pHeavy k).val := by
  have hspare : gather itemMerging.key (fun x : Item => x.size.val)
      ((List.range' (numLight + pHeavy.length) (length - (numLight + pHeavy.length))).map fun i =>
        { stack i with flowID := DUMMY_FLOW }) (Fin.ofNat 4294967296 k) = ⊥ := by
    refine gather_of_forall_ne fun x hx => ?_
    obtain ⟨i, -, rfl⟩ := List.mem_map.mp hx
    exact (counterId_ne_top hn hk).symm
  rw [itemRecords, gather_append, gather_append, hspare, sup_bot_eq, gather_lightItems pLight hn hk,
    gather_heavyItems hash pHeavy h0 hn hk, counterMax_eq]
  exact (Fin.val_strictMono.monotone.map_max).symm

end Records

theorem OUpdateCUSketch_eq_pass (hash : U32 → U32) (stack : Nat → Item) (pLight : Nat → Byte) {numLight : Nat}
    {pHeavy : List Item} (hn : numLight + pHeavy.length ≤ 2 ^ 30) :
    ∃ length, numLight + pHeavy.length ≤ length ∧ length ≤ 2 ^ 30 ∧ ∀ i,
      OUpdateCUSketch hash stack pLight numLight pHeavy i =
        match ((bitonicPass itemMerging greaterFlowID (itemRecords hash stack pLight numLight pHeavy length)
          (numLight + pHeavy.length) ⟨0, 0⟩).take numLight)[i]? with
        | some x => toByte x.size.val
        | none => pLight i := by
  have hmod : (numLight + pHeavy.length) % 4294967296 = numLight + pHeavy.length := Nat.mod_eq_of_lt (by omega)
  have hclog : Nat.clog 2 (numLight + pHeavy.length) ≤ 30 := Nat.clog_le_of_le_pow hn
  have hlevel : (toByte (Nat.clog 2 (numLight + pHeavy.length))).val = Nat.clog 2 (numLight + pHeavy.length) :=
    Nat.mod_eq_of_lt (by omega)
  have hroom : numLight + pHeavy.length ≤ 2 ^ Nat.clog 2 (numLight + pHeavy.length) := Nat.le_pow_clog (by decide) _
  refine ⟨2 ^ Nat.clog 2 (numLight + pHeavy.length), hroom, Nat.pow_le_pow_right (by decide) hclog, fun i => ?_⟩
  unfold OUpdateCUSketch bitonicPass
  dsimp only
  rw [hmod, hlevel, ← itemRecords, length_itemRecords hash stack pLight pHeavy hroom, ← OMaxItems_eq]

theorem OUpdateCUSketch_eq (hash : U32 → U32) (stack : Nat → Item) (pLight : Nat → Byte) {numLight : Nat}
    {pHeavy : List Item} (h0 : 1 ≤ numLight) (hn : numLight + pHeavy.length ≤ 2 ^ 30) :
    OUpdateCUSketch hash stack pLight numLight pHeavy = counterMax hash pLight numLight pHeavy := by
  obtain ⟨length, hroom, hlong, hpass⟩ := OUpdateCUSketch_eq_pass hash stack pLight hn
  have hn' : numLight ≤ 2 ^ 30 := by omega
  funext c
  rw [hpass]
  by_cases hc : c < numLight
  · obtain ⟨x, hx, -, hval⟩ := bitonicPass_val itemMerging_lawful greaterFlowID_compares
      ((length_itemRecords hash stack pLight pHeavy hroom).trans_le hlong)
      (countP_itemRecords hash stack pLight pHeavy length) (counterIds_pairwise hn') (top_notMem_counterIds hn')
      (fun b hb => mem_keys_itemRecords hash stack pLight pHeavy h0 length hb) ⟨0, 0⟩ (getElem?_counterIds hc)
    rw [List.getElem?_take_of_lt hc, hx]
    change toByte x.size.val = _
    rw [hval, gather_itemRecords hash stack pLight pHeavy h0 hn' length hc]
    exact Fin.ext (Nat.mod_eq_of_lt (Fin.isLt _))
  · rw [List.getElem?_eq_none ((List.length_take_le _ _).trans (not_lt.mp hc)),
      counterMax_of_le hash pLight h0 (not_lt.mp hc)]

/-- **The three updates** leave the light part alike: each counter at the largest of its value and of `min(255, size)` over
the heavy items hashed to it. -/
theorem updates_agree (hash : U32 → U32) (stack : Nat → Item) (pLight : Nat → Byte) {numLight : Nat} {pHeavy : List Item}
    (h0 : 1 ≤ numLight) (hn : numLight + pHeavy.length ≤ 2 ^ 30) :
    OUpdateCUSketch hash stack pLight numLight pHeavy = UpdateCUSketch_NO hash pLight numLight pHeavy ∧
      UpdateCUSketch_Scan hash pLight numLight pHeavy = UpdateCUSketch_NO hash pLight numLight pHeavy ∧
      ∀ c, UpdateCUSketch_NO hash pLight numLight pHeavy c = counterMax hash pLight numLight pHeavy c := by
  have hplain := UpdateCUSketch_NO_eq hash pLight numLight pHeavy
  refine ⟨?_, UpdateCUSketch_Scan_eq hash pLight h0 pHeavy, congrFun hplain⟩
  rw [OUpdateCUSketch_eq hash stack pLight h0 hn, hplain]

/-- Two counters, of which the second is hit twice. -/
theorem updates_agree_two :
    OUpdateCUSketch (fun f => f) (fun _ => ⟨0, 9⟩) (fun _ => 7) 2 [⟨3, 300⟩, ⟨1, 5⟩] =
        UpdateCUSketch_NO (fun f => f) (fun _ => 7) 2 [⟨3, 300⟩, ⟨1, 5⟩] ∧
      UpdateCUSketch_Scan (fun f => f) (fun _ => 7) 2 [⟨3, 300⟩, ⟨1, 5⟩] =
        UpdateCUSketch_NO (fun f => f) (fun _ => 7) 2 [⟨3, 300⟩, ⟨1, 5⟩] ∧
      ∀ c, UpdateCUSketch_NO (fun f => f) (fun _ => 7) 2 [⟨3, 300⟩, ⟨1, 5⟩] c =
        counterMax (fun f => f) (fun _ => 7) 2 [⟨3, 300⟩, ⟨1, 5⟩] c :=
  updates_agree (fun f => f) (fun _ => ⟨0, 9⟩) (fun _ => 7) (by decide) (by decide)

end Light

end FOSketch
