import FOSketch.Light.Mixed

/-!
# The first light block

Out of order the merge lets the counters of different blocks meet, but not those of the first one: the merger puts a least
id first whatever the order is, and an id that records of other blocks were joined into is not the least. So the first
light block at the end has no sources but its own (`home_of_mem_route_zero`).
-/

namespace FOSketch.Light

open Network Keyed

theorem vpmaxub_eq_zero {a b : Bid} (h : vpmaxub a b = 0) : a = 0 ∧ b = 0 := by
  have hval : max (a.val / 256) (b.val / 256) * 256 + max (a.val % 256) (b.val % 256) = 0 := congrArg Fin.val h
  have ha := Nat.div_add_mod a.val 256
  have hb := Nat.div_add_mod b.val 256
  exact ⟨Fin.ext (by rw [Fin.val_zero]; omega), Fin.ext (by rw [Fin.val_zero]; omega)⟩

section First
variable (hash : U32 → U32) (n : Nat) (flows : List U32)

theorem home_item {pHeavy : List Item} {i : Nat} {item : Item} (hitem : pHeavy[i]? = some item) :
    home hash n (pHeavy.map Item.flowID) (n + i) = cell hash (60 * n) item / 60 := by
  obtain ⟨hi, rfl⟩ := List.getElem?_eq_some_iff.mp hitem
  rw [home, if_neg (by omega), flowOf_add (by rwa [List.length_map]), List.getElem_map, cell]

/-- A record under the first id is of the first block alone. -/
def FirstAlone (z : Traced Bid) : Prop := z.key = 0 → ∀ s ∈ z.src, home hash n flows s = 0

variable {n} {flows}

theorem FirstAlone.join {x y : Traced Bid} (hx : FirstAlone hash n flows x) (hy : FirstAlone hash n flows y) :
    FirstAlone hash n flows (tracedMerging.join x y) := by
  intro hkey s hs
  obtain ⟨hxkey, hykey⟩ := vpmaxub_eq_zero hkey
  rcases Finset.mem_union.mp hs with hs | hs
  · exact hx hxkey s hs
  · exact hy hykey s hs

theorem firstAlone_retire (x : Traced Bid) : FirstAlone hash n flows (tracedMerging.retire x) :=
  fun hkey => absurd hkey (by decide : (⊤ : Bid) ≠ 0)

theorem firstAlone_single (h0 : 0 < n) (hn : n ≤ 65535) {i : Nat} :
    FirstAlone hash n flows (Traced.single (toBid (home hash n flows i)) i) := by
  intro hkey s hs
  have hlt := home_lt hash flows h0 i
  rw [Finset.mem_singleton.mp hs]
  exact (toBid_inj (by omega) (by decide)).mp hkey

theorem firstAlone_merged (h0 : 0 < n) (hn : n ≤ 65535) {z : Traced Bid} (hz : z ∈ tracedMerged hash n flows) :
    FirstAlone hash n flows z := by
  rcases mem_tracedMerged hash hz with hz | hz
  · obtain ⟨i, hi, rfl⟩ := List.mem_map.mp hz
    have hhome : home hash n flows i = i := if_pos (List.mem_range.mp hi)
    have hsingle : FirstAlone hash n flows (Traced.single (toBid (home hash n flows i)) i) :=
      firstAlone_single hash h0 hn
    rwa [hhome] at hsingle
  · refine heavyStage_forall (fun _ _ => FirstAlone.join hash) (fun x _ => firstAlone_retire hash x) (fun x hx => ?_) z hz
    obtain ⟨hsingle, -, hfrom⟩ := mem_tracedHeavy hash n flows hx
    by_cases htop : x.key = ⊤
    · exact fun hkey => absurd (htop.symm.trans hkey) (by decide)
    · rw [hsingle, (hfrom htop).2]
      exact firstAlone_single hash h0 hn

/-- The scan leaves a record under the first id. -/
theorem exists_first (h0 : 0 < n) (hn : n ≤ 65535) (hpo2 : testPo2 n = false) :
    ∃ z ∈ maxScan tracedMerging (tracedMerged hash n flows) (Traced.single ⊤ 0) true, z.key = 0 := by
  have hlight : Traced.single (toBid 0) 0 ∈ tracedMerged hash n flows := by
    refine (mergeASC_perm ..).mem_iff.mpr (List.mem_append_left _ ?_)
    exact List.mem_map_of_mem (List.mem_range.mpr h0)
  have hlen : (mergeInput (tracedLight n) (tracedStage hash n flows)).length = n * 2 := by
    rw [← length_tracedMerged hash n flows, tracedMerged, (mergeASC_perm ..).length_eq]
  cases hmerged : tracedMerged hash n flows with
  | nil =>
    rw [hmerged] at hlight
    exact absurd hlight List.not_mem_nil
  | cons x r =>
    have hmerge : BitonicSorter.merge greaterTraced (mergeInput (tracedLight n) (tracedStage hash n flows))
        (mergeInput (tracedLight n) (tracedStage hash n flows)).length = x :: r := by
      rw [hlen, ← hmerged, tracedMerged, hpo2]
      rfl
    have hhead := BitonicSorter.merge_head greaterTraced_compares (by omega) hmerge
    have hleast : ∀ y ∈ tracedMerged hash n flows, x.key ≤ y.key := fun y hy =>
      hhead y ((mergeASC_perm ..).mem_iff.mp hy)
    have hkey : x.key = 0 := Fin.le_zero_iff.mp (hleast _ hlight)
    have hscan : ∃ z ∈ maxScan tracedMerging (x :: r) (Traced.single ⊤ 0) true, z.key = x.key :=
      exists_key_maxScan tracedMerging_lawful.key_join (fun y hy => hleast y (hmerged ▸ List.mem_cons_of_mem x hy))
        fun h => absurd h (by decide)
    rwa [hkey] at hscan

/-- **The first light block** at the end has no sources of other blocks. -/
theorem home_of_mem_route_zero (h0 : 0 < n) (hn : n ≤ 65535) (hpo2 : testPo2 n = false) {s : Nat}
    (hs : s ∈ route hash n flows 0) : home hash n flows s = 0 := by
  obtain ⟨z, hz, hkey⟩ := @exists_first hash n flows h0 hn hpo2
  have hlen : (maxScan tracedMerging (tracedMerged hash n flows) (Traced.single ⊤ 0) true).length ≤ 2 ^ 30 := by
    rw [length_maxScan, length_tracedMerged]
    omega
  have hsorted : (tracedSorted hash n flows).Pairwise fun x y => x.key ≤ y.key :=
    sortASC_pairwise greaterTraced_compares hlen fun h => absurd (hpo2.symm.trans h) (by decide)
  have hmem : z ∈ tracedSorted hash n flows := mem_sortASC.mpr hz
  cases hfirst : tracedSorted hash n flows with
  | nil =>
    rw [hfirst] at hmem
    exact absurd hmem List.not_mem_nil
  | cons y r =>
    have hy : y ∈ maxScan tracedMerging (tracedMerged hash n flows) (Traced.single ⊤ 0) true :=
      mem_sortASC.mp (show y ∈ tracedSorted hash n flows by rw [hfirst]; exact List.mem_cons_self)
    have hle : y.key ≤ z.key := by
      rw [hfirst] at hmem hsorted
      rcases List.mem_cons.mp hmem with rfl | hmem
      · exact le_rfl
      · exact (List.pairwise_cons.mp hsorted).1 z hmem
    have hykey : y.key = 0 := Fin.le_zero_iff.mp (hle.trans hkey.le)
    have halone := maxScan_forall (fun _ _ => FirstAlone.join hash) (fun x _ => firstAlone_retire hash x)
      (fun x hx => firstAlone_merged hash h0 hn hx) (fun h => absurd h (by decide)) y hy
    rw [route, hfirst] at hs
    exact halone hykey s hs

end First

end FOSketch.Light
