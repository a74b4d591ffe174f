import FOSketch.Light.MergeOrder
import FOSketch.Light.Routes

/-!
# Where the bitonic merge mixes counters

If the bitonic merge leaves its records out of order, some record is joined into one of a lower id, and the counters of
both blocks can be told apart in the outcome: with a mark in a source of either, the light part ends with a value that the
plain loop does not leave (`mixed`).
-/

namespace FOSketch.Light

open Network Keyed

theorem tracedMerging_lawful : tracedMerging.Lawful Traced.src where
  key_join x y h := by
    change vpmaxub x.key y.key = x.key
    rw [show y.key = x.key from h.symm, vpmaxub_self]
  val_join _ _ := rfl
  key_retire _ := rfl

/-! ## The stages on traced records -/

section Stages
variable {po2 : Bool} {l : List (Traced Bid)} {num : Nat} {tmpB : Traced Bid}

theorem pairwise_apart_scanFirst (hl : l.Pairwise Apart) : (scanFirst tracedMerging l num tmpB).Pairwise Apart := by
  have hsplit := hl
  rw [← List.take_append_drop num l, List.pairwise_append] at hsplit
  obtain ⟨htake, hdrop, hcross⟩ := hsplit
  refine List.pairwise_append.mpr ⟨pairwise_apart_maxScan le_vpmaxub htake (fun h => absurd h (by decide)), hdrop,
    fun x hx y hy => ⟨fun hne => ?_, fun hne => ?_⟩⟩
  · obtain ⟨w, hw, ho, hwne⟩ := own_maxScan le_vpmaxub x hx hne
    rw [← ho]
    exact (hcross w hw y hy).1 hwne
  · exact notMem_src_maxScan (fun w hw => (hcross w hw y hy).2 hne) (fun h => absurd h (by decide)) x hx

theorem pairwise_apart_heavyStage (hl : l.Pairwise Apart) :
    (heavyStage tracedMerging greaterTraced po2 l num tmpB).Pairwise Apart := by
  unfold heavyStage
  refine (List.Perm.pairwise_iff (fun h => Apart.symm h) (sortASC_perm ..)).mpr (pairwise_apart_scanFirst ?_)
  exact (List.Perm.pairwise_iff (fun h => Apart.symm h) (sortASC_perm ..)).mpr hl

theorem mem_heavyStage (hlen : l.length ≤ 2 ^ 30) (hp : po2 = testPo2 l.length) :
    ∀ z ∈ heavyStage tracedMerging greaterTraced po2 l num tmpB,
      ∃ x ∈ l, z.own = x.own ∧ (z.key = x.key ∨ z.key = ⊤) := by
  intro z hz
  have hz := mem_sortASC.mp hz
  rcases List.mem_append.mp hz with hz | hz
  · have hsorted := sortASC_pairwise greaterTraced_compares hlen (testPo2_length hp)
    obtain ⟨x, hx, h⟩ := mem_maxScan Traced.own ⊤ tracedMerging_lawful.key_join (fun _ _ => rfl)
      (fun _ => rfl) (fun _ => rfl) (hsorted.sublist (List.take_sublist num _)) (fun _ _ h => absurd h (by decide)) z hz
    exact ⟨x, mem_sortASC.mp (List.mem_of_mem_take hx), h⟩
  · exact ⟨z, mem_sortASC.mp (List.mem_of_mem_drop hz), rfl, .inl rfl⟩

end Stages

/-! ## The sources of the records -/

section Start
variable (hash : U32 → U32) (n : Nat) (flows : List U32)

/-- The flow of a heavy source. -/
def flowOf (s : Nat) : U32 := flows.getD (s - n) 0

/-- The light block of a source: itself, or the one its flow is hashed into. -/
def home (s : Nat) : Nat := if s < n then s else (hash (flowOf n flows s)).val % (60 * n) / 60

/-- The counter of its block that a source writes: the first one of a light block, the one its flow is hashed to. -/
def column (s : Nat) : Nat := if s < n then 0 else (hash (flowOf n flows s)).val % (60 * n) % 60

/-- The record is under the id of its source. -/
def IsFrom (z : Traced Bid) : Prop := z.own < n + flows.length ∧ z.key = toBid (home hash n flows z.own)

variable {n} {flows} in
theorem flowOf_add {i : Nat} (hi : i < flows.length) : flowOf n flows (n + i) = flows[i] := by
  rw [flowOf, Nat.add_sub_cancel_left, List.getD_eq_getElem _ _ hi]

variable {n} in
theorem home_lt (h0 : 0 < n) (s : Nat) : home hash n flows s < n := by
  have := Nat.mod_lt (hash (flowOf n flows s)).val (show 0 < 60 * n by omega)
  unfold home
  split_ifs <;> omega

theorem column_lt (s : Nat) : column hash n flows s < 60 := by
  unfold column
  split_ifs <;> omega

theorem mem_tracedHeavy {x : Traced Bid} (hx : x ∈ tracedHeavy hash n flows) :
    x = Traced.single x.key x.own ∧ n ≤ x.own ∧ (x.key ≠ ⊤ → IsFrom hash n flows x) := by
  rcases List.mem_append.mp hx with hx | hx
  · obtain ⟨⟨f, i⟩, hp, rfl⟩ := List.mem_map.mp hx
    have hp := List.mem_zipIdx_iff_getElem?.mp hp
    dsimp only at hp ⊢
    obtain ⟨hi, rfl⟩ := List.getElem?_eq_some_iff.mp hp
    refine ⟨rfl, Nat.le_add_right n i, fun _ => ⟨Nat.add_lt_add_left hi n, ?_⟩⟩
    change _ = toBid (home hash n flows (n + i))
    rw [home, if_neg (by omega), flowOf_add hi]
    rfl
  · obtain ⟨i, -, rfl⟩ := List.mem_map.mp hx
    exact ⟨rfl, Nat.le_add_right n i, fun h => absurd rfl h⟩

theorem tracedHeavy_apart : (tracedHeavy hash n flows).Pairwise Apart := by
  have hown : (tracedHeavy hash n flows).map Traced.own =
      (List.range' 0 flows.length ++ List.range' flows.length (n - flows.length)).map (n + ·) := by
    rw [tracedHeavy, List.map_append, List.map_map, List.map_map, List.map_append]
    congr 1
    rw [← List.zipIdx_map_snd 0 flows, List.map_map]
    rfl
  have hnodup : ((tracedHeavy hash n flows).map Traced.own).Nodup := by
    rw [hown]
    apply List.Nodup.map (fun _ _ h => Nat.add_left_cancel h)
    have : (List.range' 0 (flows.length + (n - flows.length))).Nodup := List.nodup_range'
    rwa [← List.range'_append_1, Nat.zero_add] at this
  rw [List.Nodup, List.pairwise_map] at hnodup
  refine hnodup.imp_of_mem fun {x y} hx hy hne => ?_
  rw [(mem_tracedHeavy hash n flows hx).1, (mem_tracedHeavy hash n flows hy).1]
  exact apart_single hne

variable {n} {flows}

theorem tracedMerged_apart (hn : n ≤ 65535) (hF : flows.length ≤ 2 ^ 30) :
    (tracedMerged hash n flows).Pairwise Apart := by
  apply (List.Perm.pairwise_iff (fun h => Apart.symm h) (mergeASC_perm ..)).mpr
  have hlong : (tracedHeavy hash n flows).length ≤ 2 ^ 30 := by
    rw [length_tracedHeavy]
    split_ifs <;> omega
  refine List.pairwise_append.mpr ⟨?_, (pairwise_apart_heavyStage (tracedHeavy_apart hash n flows)).sublist
    (List.take_sublist _ _), fun x hx y hy => ?_⟩
  · rw [tracedLight, List.pairwise_map]
    exact List.pairwise_lt_range.imp fun h => apart_single h.ne
  · obtain ⟨i, hi, rfl⟩ := List.mem_map.mp hx
    rw [List.mem_range] at hi
    have hy := List.mem_of_mem_take hy
    obtain ⟨w, hw, ho, -⟩ := mem_heavyStage hlong (by rw [length_tracedHeavy]) y hy
    constructor
    · intro _
      refine heavyStage_forall (P := fun z => i ∉ z.src) (fun _ _ ha hb h => (Finset.mem_union.mp h).elim ha hb)
        (fun _ h => h) (fun x hx h => ?_) y hy
      obtain ⟨hs, hge, -⟩ := mem_tracedHeavy hash n flows hx
      rw [hs] at h
      have := Finset.mem_singleton.mp h
      omega
    · intro _ h
      have := Finset.mem_singleton.mp h
      have := (mem_tracedHeavy hash n flows hw).2.1
      omega

theorem own_mem_src {z : Traced Bid} (hz : z ∈ tracedMerged hash n flows) : z.own ∈ z.src := by
  rcases mem_tracedMerged hash hz with hz | hz
  · obtain ⟨i, -, rfl⟩ := List.mem_map.mp hz
    exact Finset.mem_singleton_self i
  · refine heavyStage_forall (P := fun z => z.own ∈ z.src) (fun _ _ h _ => Finset.mem_union_left _ h) (fun _ h => h)
      (fun x hx => ?_) z hz
    rw [(mem_tracedHeavy hash n flows hx).1]
    exact Finset.mem_singleton_self _

theorem isFrom_of_mem (hn : n ≤ 65535) (hF : flows.length ≤ 2 ^ 30) {z : Traced Bid}
    (hz : z ∈ tracedMerged hash n flows) (hne : z.key ≠ ⊤) : IsFrom hash n flows z := by
  have hlong : (tracedHeavy hash n flows).length ≤ 2 ^ 30 := by
    rw [length_tracedHeavy]
    split_ifs <;> omega
  rcases mem_tracedMerged hash hz with hz | hz
  · obtain ⟨i, hi, rfl⟩ := List.mem_map.mp hz
    rw [List.mem_range] at hi
    exact ⟨Nat.lt_add_right _ hi, congrArg toBid (if_pos hi).symm⟩
  · obtain ⟨w, hw, ho, hk⟩ := mem_heavyStage hlong (by rw [length_tracedHeavy]) z hz
    have hk := hk.resolve_right hne
    have := (mem_tracedHeavy hash n flows hw).2.2 (hk ▸ hne)
    unfold IsFrom at this ⊢
    rwa [ho, hk]

end Start

/-! ## Marks -/

section Marks
variable (hash : U32 → U32) (n : Nat) (flows : List U32) (w : Nat → Byte)

/-- A block that holds the marks of its sources. -/
noncomputable def valued (z : Traced Bid) : Block64 :=
  ⟨z.key, 0, fun j => z.src.sup fun s => if j.val = column hash n flows s then w s else 0⟩

def noBlock : Block64 := ⟨0, 0, fun _ => 0⟩

/-- The light part with its marks. -/
def markLight (a : Nat) : Byte := if a % 60 = 0 then w (a / 60) else 0

def markHeavy : List Item := flows.zipIdx.map fun p => ⟨p.1, ⟨(w (n + p.2)).val, by omega⟩⟩

theorem map_flowID_markHeavy : (markHeavy n flows w).map Item.flowID = flows := by
  rw [markHeavy, List.map_map]
  exact List.zipIdx_map_fst 0 flows

theorem length_markHeavy : (markHeavy n flows w).length = flows.length := by
  rw [markHeavy, List.length_map, List.length_zipIdx]

theorem offer_mark (f : U32) (v : Byte) : offer ⟨f, ⟨v.val, by omega⟩⟩ = v := by
  apply Fin.ext
  rw [offer_val]
  have := v.isLt
  dsimp only
  omega

noncomputable def startB : Block64 := valued hash n flows w (Traced.single ⊤ 0)

theorem sourceData_mark (hw : ∀ s, n + flows.length ≤ s → w s = 0) (s : Nat) :
    sourceData hash (fun _ => noBlock) (markLight w) n (markHeavy n flows w) s =
      fun j => if j.val = column hash n flows s then w s else 0 := by
  funext j
  have hj := j.isLt
  unfold sourceData
  by_cases hs : s < n
  · rw [if_pos hs, column, if_pos hs]
    change markLight w (s * nRecord + j.val) = _
    rw [markLight, nRecord_eq]
    by_cases h : j.val = 0
    · rw [if_pos h, if_pos (by omega), show (s * 60 + j.val) / 60 = s by omega]
    · rw [if_neg h, if_neg (by omega)]
  · obtain ⟨i, rfl⟩ := Nat.exists_eq_add_of_le (not_lt.mp hs)
    rw [if_neg hs, Nat.add_sub_cancel_left, column, if_neg hs]
    by_cases hi : i < flows.length
    · have hitem : (markHeavy n flows w)[i]? = some ⟨flows[i], ⟨(w (n + i)).val, by omega⟩⟩ := by
        rw [markHeavy, List.getElem?_map, List.getElem?_zipIdx, List.getElem?_eq_getElem hi]
        simp
      rw [hitem, flowOf_add hi]
      apply (heavyBlock_data hash (60 * n) _ noBlock j).trans
      rw [offer_mark]
      exact if_congr eq_comm rfl rfl
    · have hnone : (markHeavy n flows w)[i]? = none := by
        rw [List.getElem?_eq_none_iff, length_markHeavy]
        exact not_lt.mp hi
      rw [hnone, hw (n + i) (by omega), ite_self]
      rfl

theorem mergedBlocks_mark (hw : ∀ s, n + flows.length ≤ s → w s = 0) :
    (mergedBlocks hash (fun _ => noBlock) (startB hash n flows w) (markLight w) n (markHeavy n flows w)).map forgetPos =
      (tracedMerged hash n flows).map (valued hash n flows w) := by
  rw [mergedBlocks_routed, map_flowID_markHeavy, routed, funext (sourceData_mark hash n flows w hw)]
  rfl

/-- The counters of a light block at the end: the marks of the sources of some record that the scan leaves. -/
theorem OUpdateCUSketch_BEx_mark (hn : n ≤ 65535) (hw : ∀ s, n + flows.length ≤ s → w s = 0) {k : Nat} (hk : k < n) :
    ∃ z ∈ maxScan tracedMerging (tracedMerged hash n flows) (Traced.single ⊤ 0) true, ∀ j : Fin 60,
      OUpdateCUSketch_BEx hash (fun _ => noBlock) (startB hash n flows w) (markLight w) (60 * n) (markHeavy n flows w)
        (k * 60 + j) = (valued hash n flows w z).data j := by
  obtain ⟨z, hz, hroute⟩ := exists_route hash hk
  refine ⟨z, hz, fun j => ?_⟩
  rw [OUpdateCUSketch_BEx_route hash _ _ _ n _ hn hk, map_flowID_markHeavy, hroute,
    funext (sourceData_mark hash n flows w hw)]
  rfl

/-- The plain loop leaves in a counter the largest mark of the sources that write it. -/
theorem counterMax_mark_le_iff {k j : Nat} (hk : k < n) (hj : j < 60) {v : Byte} :
    counterMax hash (markLight w) (60 * n) (markHeavy n flows w) (k * 60 + j) ≤ v ↔
      ∀ s < n + flows.length, home hash n flows s = k → column hash n flows s = j → w s ≤ v := by
  have hdiv : (k * 60 + j) / 60 = k := by omega
  have hmod : (k * 60 + j) % 60 = j := by omega
  rw [counterMax_le_iff, markLight, hdiv, hmod]
  constructor
  · rintro ⟨hlight, hheavy⟩ s hs hhome hcol
    by_cases hsn : s < n
    · rw [home, if_pos hsn] at hhome
      rw [column, if_pos hsn] at hcol
      rw [if_pos hcol.symm] at hlight
      rwa [hhome]
    · obtain ⟨i, rfl⟩ := Nat.exists_eq_add_of_le (not_lt.mp hsn)
      have hi : i < flows.length := by omega
      rw [home, if_neg hsn, flowOf_add hi] at hhome
      rw [column, if_neg hsn, flowOf_add hi] at hcol
      have := hheavy ⟨flows[i], ⟨(w (n + i)).val, by omega⟩⟩
        (List.mem_map.mpr ⟨(flows[i], i), List.mem_zipIdx_iff_getElem?.mpr (List.getElem?_eq_getElem hi), rfl⟩)
        (by dsimp only; omega)
      rwa [offer_mark] at this
  · intro h
    refine ⟨?_, fun item hitem hc => ?_⟩
    · split_ifs with hj0
      · exact h k (by omega) (if_pos hk) (by rw [column, if_pos hk, hj0])
      · exact Fin.zero_le v
    · obtain ⟨⟨f, i⟩, hp, rfl⟩ := List.mem_map.mp hitem
      have hp := List.mem_zipIdx_iff_getElem?.mp hp
      dsimp only at hp hc ⊢
      obtain ⟨hi, rfl⟩ := List.getElem?_eq_some_iff.mp hp
      rw [offer_mark]
      refine h (n + i) (by omega) ?_ ?_
      · rw [home, if_neg (by omega), flowOf_add hi, hc, hdiv]
      · rw [column, if_neg (by omega), flowOf_add hi, hc, hmod]

end Marks

/-! ## Two marks that meet -/

/-- The mark of two sources: `e` and the one it must not meet. -/
def twoMarks (e c s : Nat) : Byte := if s = e then 100 else if s = c then 200 else 0

/-- Where the merged records are out of order, a record `c` stands before one with a smaller key, `e`, whose source is in
no other record. -/
theorem exists_unordered {hash : U32 → U32} {n : Nat} {flows : List U32} (h0 : 0 < n) (hn : n ≤ 65535)
    (hF : flows.length ≤ 2 ^ 30) (hpo2 : testPo2 n = false) (h : ¬MergeInOrder hash n flows) :
    ∃ a c e b, tracedMerged hash n flows = a ++ c :: e :: b ∧ e.key < c.key ∧ c.key ≠ ⊤ ∧
      ∀ x ∈ a ++ c :: b, e.own ∉ x.src := by
  have hlenM : (markHeavy n flows fun _ => 0).length ≤ 2 ^ 30 := by rwa [length_markHeavy]
  have hmark := mergedBlocks_mark hash n flows (fun _ => 0) fun _ _ => rfl
  have hunsorted : ¬(tracedMerged hash n flows).Pairwise fun x y => tracedMerging.key x ≤ tracedMerging.key y := by
    intro hs
    have hiff := mergedBlocks_pairwise_iff hash (fun _ => noBlock) (startB hash n flows fun _ => 0)
      (markLight fun _ => 0) h0 hn hlenM hpo2
    rw [map_flowID_markHeavy] at hiff
    apply h
    apply hiff.mp
    have hmap : ((tracedMerged hash n flows).map (valued hash n flows fun _ => 0)).Pairwise
        fun x y => x.blockID ≤ y.blockID := List.pairwise_map.mpr hs
    rw [← hmark, List.pairwise_map] at hmap
    exact hmap
  obtain ⟨a, c, e, b, hsplit, hlt⟩ := exists_descent hunsorted
  have hce : e.key < c.key := hlt
  refine ⟨a, c, e, b, hsplit, hce, ?_, ?_⟩
  · rw [hsplit, List.map_append, List.map_cons, List.map_cons] at hmark
    obtain ⟨a', r, hblocks, -, hr⟩ := List.map_eq_append_iff.mp hmark
    obtain ⟨c', r, rfl, hc, hr⟩ := List.map_eq_cons_iff.mp hr
    obtain ⟨e', r, rfl, he, -⟩ := List.map_eq_cons_iff.mp hr
    have hckey : c'.blockID = c.key := congrArg Block64.blockID hc
    have hekey : e'.blockID = e.key := congrArg Block64.blockID he
    rw [← hckey]
    exact ne_top_of_descent hash _ _ _ h0 hn hlenM hpo2 hblocks (by rwa [hckey, hekey])
  · have hperm : (tracedMerged hash n flows).Perm (e :: (a ++ c :: b)) := by
      rw [hsplit, show a ++ c :: e :: b = (a ++ [c]) ++ e :: b by simp, show a ++ c :: b = (a ++ [c]) ++ b by simp]
      exact List.perm_middle
    have hap := (hperm.pairwise_iff fun h => Apart.symm h).mp (tracedMerged_apart hash hn hF)
    exact fun x hx => ((List.pairwise_cons.mp hap).1 x hx).1 (hce.trans_le le_top).ne

/-- The mark of a source is in its column of every record that has it. -/
theorem mark_le_valued (hash : U32 → U32) (n : Nat) (flows : List U32) (w : Nat → Byte) {z : Traced Bid} {s : Nat}
    (hs : s ∈ z.src) : w s ≤ (valued hash n flows w z).data ⟨_, column_lt hash n flows s⟩ := by
  have hle := Finset.le_sup (f := fun s' => if column hash n flows s = column hash n flows s' then w s' else 0) hs
  rwa [if_pos rfl] at hle

/-- **Out of order, counters mix**: for some light part and some sizes of the heavy items, the update leaves a value that
the plain loop does not leave. -/
theorem mixed {hash : U32 → U32} {n : Nat} {flows : List U32} (h0 : 0 < n) (hn : n ≤ 65535)
    (hF : flows.length ≤ 2 ^ 30) (hpo2 : testPo2 n = false) (h : ¬MergeInOrder hash n flows) :
    ∃ (stack : Nat → Block64) (tmpB : Block64) (pLight : Nat → Byte) (pHeavy : List Item),
      pHeavy.map Item.flowID = flows ∧
        OUpdateCUSketch_BEx hash stack tmpB pLight (60 * n) pHeavy ≠ UpdateCUSketch_NO hash pLight (60 * n) pHeavy := by
  obtain ⟨a, c, e, b, hsplit, hce, hctop, hfree⟩ := exists_unordered h0 hn hF hpo2 h
  have hcmem : c ∈ tracedMerged hash n flows := by rw [hsplit]; simp
  have hemem : e ∈ tracedMerged hash n flows := by rw [hsplit]; simp
  obtain ⟨hclt, hckey⟩ := isFrom_of_mem hash hn hF hcmem hctop
  obtain ⟨helt, hekey⟩ := isFrom_of_mem hash hn hF hemem (hce.trans_le le_top).ne
  have hcsrc := own_mem_src hash hcmem
  have hne : c.own ≠ e.own := fun he => hfree c (by simp) (he ▸ hcsrc)
  have hhome : home hash n flows c.own ≠ home hash n flows e.own := fun he => hce.ne (by rw [hckey, hekey, he])
  set w := twoMarks e.own c.own with hw
  have hwe : w e.own = 100 := if_pos rfl
  have hwc : w c.own = 200 := (if_neg hne).trans (if_pos rfl)
  have hw0 : ∀ s, s ≠ e.own → s ≠ c.own → w s = 0 := fun s he hc => (if_neg he).trans (if_neg hc)
  refine ⟨fun _ => noBlock, startB hash n flows w, markLight w, markHeavy n flows w,
    map_flowID_markHeavy n flows w, fun heq => ?_⟩
  rw [UpdateCUSketch_NO_eq] at heq
  have hk := home_lt hash flows h0 e.own
  obtain ⟨z, hz, hdata⟩ := OUpdateCUSketch_BEx_mark hash n flows w hn
    (fun s hs => hw0 s (by omega) (by omega)) hk
  rw [heq] at hdata
  have hle : ∀ j : Fin 60, (valued hash n flows w z).data j ≤ 100 := by
    intro j
    rw [← hdata j, counterMax_mark_le_iff hash n flows w hk j.isLt]
    intro s _ hs _
    by_cases he : s = e.own
    · rw [he, hwe]
    · rw [hw0 s he fun hc => hhome (hc ▸ hs)]; exact Fin.zero_le _
  have hge : 100 ≤ (valued hash n flows w z).data ⟨_, column_lt hash n flows e.own⟩ := by
    rw [← hdata, ← hwe]
    exact (counterMax_mark_le_iff hash n flows w hk (column_lt hash n flows e.own)).mp le_rfl e.own helt rfl rfl
  -- a record with the source of `e` has that of `c`, whose mark is too large
  have hnotc : c.own ∉ z.src := fun hc =>
    absurd ((hwc ▸ mark_le_valued hash n flows w hc).trans (hle _)) (by decide)
  have hnote : e.own ∉ z.src := fun he => hnotc
    (together_maxScan le_vpmaxub hce hcsrc hfree (Traced.single ⊤ 0) true (fun h => absurd h (by decide)) z
      (hsplit ▸ hz) he)
  have hzero : (valued hash n flows w z).data ⟨_, column_lt hash n flows e.own⟩ ≤ 0 := by
    refine Finset.sup_le fun s hs => ?_
    split_ifs
    · rw [hw0 s (fun he => hnote (he ▸ hs)) fun hc => hnotc (hc ▸ hs)]
    · exact le_rfl
  exact absurd (hge.trans hzero) (by decide)

end FOSketch.Light
