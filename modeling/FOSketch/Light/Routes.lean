import FOSketch.Keyed.Traced
import FOSketch.Light.Refines

/-!
# Where a counter comes from

The stages of the update run on traced records, which carry no counters; every run on blocks is an image of it. A counter at
the end is the largest that its sources hold on entry (`OUpdateCUSketch_BEx_route`). Which blocks these are is `route`: it
depends on the hash function, the number of light blocks and the flow ids alone.
-/

namespace FOSketch.Light

open Network Keyed

abbrev tracedMerging : Merging (Traced Bid) Bid := tracing vpmaxub

def greaterTraced (x y : Traced Bid) : Bool := decide (y.key < x.key)

theorem greaterTraced_compares : Compares greaterTraced tracedMerging.key := fun _ _ => rfl

theorem mem_sortASC {α : Type*} {greater : α → α → Bool} {po2 : Bool} {l : List α} {num : Nat} {x : α} :
    x ∈ sortASC greater po2 l num ↔ x ∈ l := (sortASC_perm ..).mem_iff

theorem heavyStage_forall {po2 : Bool} {l : List (Traced Bid)} {num : Nat} {tmpB : Traced Bid} {P : Traced Bid → Prop}
    (hj : ∀ x y, P x → P y → P (tracedMerging.join x y)) (hr : ∀ x, P x → P (tracedMerging.retire x))
    (hl : ∀ x ∈ l, P x) : ∀ z ∈ heavyStage tracedMerging greaterTraced po2 l num tmpB, P z := by
  intro z hz
  have hz := mem_sortASC.mp hz
  rcases List.mem_append.mp hz with hz | hz
  · exact maxScan_forall hj hr (fun x hx => hl x (mem_sortASC.mp (List.mem_of_mem_take hx)))
      (fun h => absurd h (by decide)) z hz
  · exact hl z (mem_sortASC.mp (List.mem_of_mem_drop hz))

/-! ## The records on entry -/

section Start
variable (hash : U32 → U32) (n : Nat) (flows : List U32)

def tracedLight : List (Traced Bid) := (List.range n).map fun i => Traced.single (toBid i) i

def tracedHeavy : List (Traced Bid) :=
  (flows.zipIdx.map fun p => Traced.single (toBid ((hash p.1).val % (60 * n) / 60)) (n + p.2)) ++
    (List.range' flows.length (n - flows.length)).map fun i => Traced.single ⊤ (n + i)

def tracedStage : List (Traced Bid) :=
  heavyStage tracedMerging greaterTraced (testPo2 (if n < flows.length then flows.length else n))
    (tracedHeavy hash n flows) flows.length (Traced.single ⊤ 0)

def tracedMerged : List (Traced Bid) :=
  mergeASC greaterTraced (testPo2 n) (mergeInput (tracedLight n) (tracedStage hash n flows)) (n * 2)

def tracedSorted : List (Traced Bid) :=
  let scanned := maxScan tracedMerging (tracedMerged hash n flows) (Traced.single ⊤ 0) true
  sortASC greaterTraced (testPo2 n) scanned scanned.length

/-- The sources of the record that is copied back to the light block `k`. -/
def route (k : Nat) : Finset Nat := (tracedSorted hash n flows)[k]?.elim ∅ Traced.src

@[simp] theorem length_tracedLight : (tracedLight n).length = n := by rw [tracedLight, List.length_map, List.length_range]

theorem length_tracedHeavy : (tracedHeavy hash n flows).length = if n < flows.length then flows.length else n := by
  rw [tracedHeavy, List.length_append, List.length_map, List.length_zipIdx, List.length_map, List.length_range']
  split_ifs <;> omega

theorem le_length_tracedStage : n ≤ (tracedStage hash n flows).length := by
  rw [tracedStage, length_heavyStage, length_tracedHeavy]
  split_ifs <;> omega

theorem length_tracedMerged : (tracedMerged hash n flows).length = n * 2 := by
  have hroom : (tracedLight n).length ≤ (tracedStage hash n flows).length := by
    rw [length_tracedLight]
    exact le_length_tracedStage hash n flows
  rw [tracedMerged, (mergeASC_perm ..).length_eq, length_mergeInput hroom, length_tracedLight]

variable {n} {flows}

theorem mem_tracedMerged {z : Traced Bid} (hz : z ∈ tracedMerged hash n flows) :
    z ∈ tracedLight n ∨ z ∈ tracedStage hash n flows := by
  have := (mergeASC_perm ..).mem_iff.mp hz
  exact (List.mem_append.mp this).imp_right List.mem_of_mem_take

theorem exists_route {k : Nat} (hk : k < n) :
    ∃ z ∈ maxScan tracedMerging (tracedMerged hash n flows) (Traced.single ⊤ 0) true, route hash n flows k = z.src := by
  have hlt : k < (tracedSorted hash n flows).length := by
    rw [tracedSorted, (sortASC_perm ..).length_eq, length_maxScan, length_tracedMerged]
    omega
  refine ⟨(tracedSorted hash n flows)[k], mem_sortASC.mp (List.getElem_mem hlt), ?_⟩
  rw [route, List.getElem?_eq_getElem hlt]
  rfl

/-- With a flow for every heavy record, a source is a light block or a flow. -/
theorem route_lt (hF : n ≤ flows.length) {k s : Nat} (hs : s ∈ route hash n flows k) : s < n + flows.length := by
  have hsingle : ∀ (b : Bid) {i : Nat}, i < n + flows.length → ∀ s ∈ (Traced.single b i).src, s < n + flows.length := by
    intro b i hi s hs
    rwa [Finset.mem_singleton.mp hs]
  have hjoin : ∀ x y : Traced Bid, (∀ s ∈ x.src, s < n + flows.length) → (∀ s ∈ y.src, s < n + flows.length) →
      ∀ s ∈ (tracedMerging.join x y).src, s < n + flows.length := fun x y hx hy s hs =>
    (Finset.mem_union.mp hs).elim (hx s) (hy s)
  have hmerged : ∀ z ∈ tracedMerged hash n flows, ∀ s ∈ z.src, s < n + flows.length := by
    intro z hz
    rcases mem_tracedMerged hash hz with hz | hz
    · obtain ⟨i, hi, rfl⟩ := List.mem_map.mp hz
      exact hsingle _ (Nat.lt_add_right _ (List.mem_range.mp hi))
    · refine heavyStage_forall hjoin (fun _ hx => hx) (fun x hx => ?_) z hz
      rcases List.mem_append.mp hx with hx | hx
      · obtain ⟨⟨f, i⟩, hp, rfl⟩ := List.mem_map.mp hx
        obtain ⟨hi, -⟩ := List.getElem?_eq_some_iff.mp (List.mem_zipIdx_iff_getElem?.mp hp)
        exact hsingle _ (Nat.add_lt_add_left hi n)
      · obtain ⟨i, hi, rfl⟩ := List.mem_map.mp hx
        rw [List.mem_range'_1] at hi
        exact hsingle _ (by omega)
  unfold route at hs
  cases hget : (tracedSorted hash n flows)[k]? with
  | none =>
    rw [hget] at hs
    exact absurd hs (Finset.notMem_empty s)
  | some z =>
    rw [hget] at hs
    have hz := mem_sortASC.mp (List.mem_of_getElem? hget)
    exact maxScan_forall hjoin (fun _ hx => hx) hmerged (fun h => absurd h (by decide)) z hz s hs

end Start

/-! ## Blocks as images -/

/-- A block up to its `pos`, which no counter depends on. -/
def forgetPos (b : Block64) : Block64 := { b with pos := 0 }

theorem forgetPos_image : blockMerging.Image blockMerging forgetPos where
  key _ := rfl
  join x y := by
    change _ = Block64.mk _ (vpmaxub 0 0) _
    rw [vpmaxub_self]
    rfl
  retire _ := rfl

theorem greater_forgetPos (x y : Block64) : greater_SP x y = greater_SP (forgetPos x) (forgetPos y) := rfl

/-- The block of a record: its id, and in each counter the largest that its sources hold. -/
noncomputable def joined (val : Nat → Fin 60 → Byte) (z : Traced Bid) : Block64 :=
  ⟨z.key, 0, fun j => z.src.sup fun s => val s j⟩

theorem joined_single (val : Nat → Fin 60 → Byte) (k : Bid) (s : Nat) : joined val (Traced.single k s) = ⟨k, 0, val s⟩ := by
  simp only [joined, Traced.single, Finset.sup_singleton]

theorem joined_image (val : Nat → Fin 60 → Byte) : tracedMerging.Image blockMerging (joined val) where
  key _ := rfl
  join x y := by
    have hsup : ∀ j : Fin 60, ((x.src ∪ y.src).sup fun s => val s j) =
        max (x.src.sup fun s => val s j) (y.src.sup fun s => val s j) := fun j => Finset.sup_union
    simp only [joined, tracing, hsup]
    change _ = Block64.mk _ (vpmaxub 0 0) _
    rw [vpmaxub_self]
  retire _ := rfl

theorem greater_joined (val : Nat → Fin 60 → Byte) (x y : Traced Bid) :
    greaterTraced x y = greater_SP (joined val x) (joined val y) := rfl

section Data
variable (hash : U32 → U32) (stack : Nat → Block64) (tmpB : Block64) (pLight : Nat → Byte) (n : Nat) (pHeavy : List Item)

/-- What the block of a source holds on entry: a light block, that of a heavy item, or a spare one. -/
def sourceData (s : Nat) : Fin 60 → Byte :=
  if s < n then (lightBlock pLight s (stack s)).data
  else match pHeavy[s - n]? with
    | some item => (heavyBlock hash (60 * n) item (stack s)).data
    | none => (stack s).data

noncomputable abbrev routed : Traced Bid → Block64 := joined (sourceData hash stack pLight n pHeavy)

theorem lightBlocks_routed :
    (lightBlocks pLight stack n).map forgetPos = (tracedLight n).map (routed hash stack pLight n pHeavy) := by
  rw [lightBlocks, tracedLight, List.map_map, List.map_map]
  apply List.map_congr_left
  intro i hi
  rw [Function.comp_apply, Function.comp_apply, routed, joined_single, sourceData, if_pos (List.mem_range.mp hi)]
  rfl

theorem fillHeavy_routed : (fillHeavy hash (60 * n) pHeavy (fun i => stack (n + i)) n).map forgetPos =
    (tracedHeavy hash n (pHeavy.map Item.flowID)).map (routed hash stack pLight n pHeavy) := by
  have hnot : ∀ i, ¬n + i < n := fun i => by omega
  rw [fillHeavy, tracedHeavy, List.map_append, List.map_append, List.length_map, List.zipIdx_map]
  simp only [List.map_map]
  congr 1
  · apply List.map_congr_left
    rintro ⟨item, i⟩ hp
    have hget : pHeavy[n + i - n]? = some item := by
      rw [Nat.add_sub_cancel_left]
      exact List.mem_zipIdx_iff_getElem?.mp hp
    simp only [Function.comp_apply, Prod.map, id]
    rw [routed, joined_single, sourceData, if_neg (hnot i), hget]
    rfl
  · apply List.map_congr_left
    intro i hi
    have hget : pHeavy[n + i - n]? = none := by
      rw [Nat.add_sub_cancel_left, List.getElem?_eq_none_iff]
      exact (List.mem_range'_1.mp hi).1
    rw [Function.comp_apply, Function.comp_apply, routed, joined_single, sourceData, if_neg (hnot i), hget]
    rfl

theorem heavyBlocks_routed : (heavyBlocks hash stack tmpB n pHeavy).map forgetPos =
    (tracedStage hash n (pHeavy.map Item.flowID)).map (routed hash stack pLight n pHeavy) := by
  rw [heavyBlocks, heavyStage_map forgetPos_image greater_forgetPos, fillHeavy_routed hash stack pLight, tracedStage,
    heavyStage_map (joined_image _) (greater_joined _), List.length_map]
  exact heavyStage_carry ..

theorem mergedBlocks_routed : (mergedBlocks hash stack tmpB pLight n pHeavy).map forgetPos =
    (tracedMerged hash n (pHeavy.map Item.flowID)).map (routed hash stack pLight n pHeavy) := by
  rw [mergedBlocks, tracedMerged, mergeASC_map forgetPos greater_forgetPos, mergeASC_map _ (greater_joined _), mergeInput,
    mergeInput, List.map_append, List.map_append, List.map_take, List.map_take, lightBlocks_routed hash stack pLight,
    heavyBlocks_routed hash stack tmpB pLight, length_lightBlocks, length_tracedLight]

/-- **A counter at the end** is the largest that the sources of its block hold. -/
theorem OUpdateCUSketch_BEx_route (hn : n ≤ 65535) {k : Nat} (hk : k < n) (j : Fin 60) :
    OUpdateCUSketch_BEx hash stack tmpB pLight (60 * n) pHeavy (k * 60 + j) =
      (route hash n (pHeavy.map Item.flowID) k).sup fun s => sourceData hash stack pLight n pHeavy s j := by
  have hlen : (mergedBlocks hash stack tmpB pLight n pHeavy).length = n * 2 := length_mergedBlocks hash _ _ _
  have hj := j.isLt
  have hdiv : (k * 60 + j.val) / 60 = k := by omega
  have hmod : (k * 60 + j.val) % 60 = j.val := by omega
  set scanned := maxScan blockMerging (mergedBlocks hash stack tmpB pLight n pHeavy) tmpB true with hscanned
  have hsort : (sortASC greater_SP (testPo2 n) scanned scanned.length).map forgetPos =
      (tracedSorted hash n (pHeavy.map Item.flowID)).map (routed hash stack pLight n pHeavy) := by
    rw [sortASC_map forgetPos greater_forgetPos, tracedSorted, sortASC_map _ (greater_joined _)]
    rw [hscanned, length_maxScan, length_maxScan, maxScan_map forgetPos_image, mergedBlocks_routed, hlen,
      length_tracedMerged]
    congr 1
    rw [maxScan_map (joined_image _)]
    exact maxScan_true ..
  have hlt : k < (sortASC greater_SP (testPo2 n) scanned scanned.length).length := by
    rw [(sortASC_perm ..).length_eq, hscanned, length_maxScan, hlen]
    omega
  have hget := congrArg (·[k]?) hsort
  simp only [List.getElem?_map, List.getElem?_eq_getElem hlt, Option.map_some] at hget
  obtain ⟨z, hz, hblock⟩ := Option.map_eq_some_iff.mp hget.symm
  rw [OUpdateCUSketch_BEx_merged hash _ _ _ hn, lightStage_append blockMerging greater_SP hlen hn rfl, ← hscanned,
    copyBack_some pLight (by omega) (b := (sortASC greater_SP (testPo2 n) scanned scanned.length)[k])]
  · rw [route, hz]
    have hdata : ((sortASC greater_SP (testPo2 n) scanned scanned.length)[k]).data =
        fun j => z.src.sup fun s => sourceData hash stack pLight n pHeavy s j := (congrArg Block64.data hblock).symm
    rw [hdata]
    simp only [hmod, Option.elim]
  · rw [hdiv, List.getElem?_append_left hlt, List.getElem?_eq_getElem hlt]

end Data

end FOSketch.Light
