import FOSketch.Heavy.Change
import FOSketch.Keyed.Scan

/-!
# `OHeavyChange` and the map-based test

`TestHeavyChange_NO_MAP` finds the changes with hash maps. On lists of `NUM_HEAVY` recorded flows it reports the entries
that `OHeavyChange` puts in front of `HeavyChangeList`.
-/

namespace FOSketch.Heavy

/-- `unordered_map<uint32_t, uint32_t>`, of which only the order of the entries is made up. -/
abbrev StatMap := AList fun _ : U32 => U32

def get_stat_map (pdata : Nat → Item) : StatMap :=
  (List.range NUM_HEAVY).foldl (fun m i => m.insert (pdata i).flowID (pdata i).size) ∅

/-- `prev_statistics[it.first] = fabs(…)` for every entry of `cur`. -/
def updateStats (prev cur : StatMap) : StatMap :=
  cur.entries.foldl (fun m it => m.insert it.1 (absDelta ((m.lookup it.1).getD 0) it.2)) prev

/-- The entries of `HeavyChangeList` before the one of size `0`; their number is returned. -/
def TestHeavyChange_NO_MAP (pdata1 pdata2 : Nat → Item) : List Item :=
  let stats := updateStats (get_stat_map pdata1) (get_stat_map pdata2)
  let myvector := (stats.entries.map fun it => (⟨it.1, it.2⟩ : Item)).mergeSort fun x y => decide (y.size ≤ x.size)
  myvector.takeWhile fun x => decide (1 ≤ x.size.val)

/-! ## The maps -/

theorem lookup_foldl_insert {l : List Item} (h : Recorded l) (m : StatMap) (f : U32) :
    ((l.foldl (fun m x => m.insert x.flowID x.size) m).lookup f).map Fin.val =
      if ∃ x ∈ l, x.flowID = f then some (sizeOf l f) else (m.lookup f).map Fin.val := by
  induction l generalizing m with
  | nil => simp
  | cons x l ih =>
    rw [List.foldl_cons, ih h.of_cons]
    by_cases hl : ∃ y ∈ l, y.flowID = f
    · obtain ⟨y, hy, rfl⟩ := hl
      have hmem := List.mem_cons_of_mem x hy
      rw [if_pos ⟨y, hy, rfl⟩, if_pos ⟨y, hmem, rfl⟩, sizeOf_of_mem h.of_cons hy, sizeOf_of_mem h hmem]
    · rw [if_neg hl]
      by_cases hx : x.flowID = f
      · subst hx
        rw [if_pos ⟨x, List.mem_cons_self, rfl⟩, AList.lookup_insert, sizeOf_cons_self]
        rfl
      · rw [AList.lookup_insert_ne (Ne.symm hx), if_neg]
        rintro ⟨y, hy, he⟩
        rcases List.mem_cons.mp hy with rfl | hy
        · exact hx he
        · exact hl ⟨y, hy, he⟩

theorem lookup_get_stat_map {pdata : Nat → Item} (h : Recorded (curList pdata NUM_HEAVY)) (f : U32) :
    ((get_stat_map pdata).lookup f).map Fin.val =
      if ∃ x ∈ curList pdata NUM_HEAVY, x.flowID = f then some (sizeOf (curList pdata NUM_HEAVY) f) else none := by
  have hfold : get_stat_map pdata = (curList pdata NUM_HEAVY).foldl (fun m x => m.insert x.flowID x.size) ∅ := by
    unfold get_stat_map curList
    rw [List.foldl_map]
  rw [hfold, lookup_foldl_insert h, AList.lookup_empty, Option.map_none]

theorem getD_lookup_get_stat_map {pdata : Nat → Item} (h : Recorded (curList pdata NUM_HEAVY)) (f : U32) :
    (((get_stat_map pdata).lookup f).getD 0).val = sizeOf (curList pdata NUM_HEAVY) f := by
  have hlookup := lookup_get_stat_map h f
  by_cases hf : ∃ x ∈ curList pdata NUM_HEAVY, x.flowID = f
  · rw [if_pos hf] at hlookup
    cases hl : (get_stat_map pdata).lookup f with
    | none =>
      rw [hl, Option.map_none] at hlookup
      exact absurd hlookup (by simp)
    | some d =>
      rw [hl, Option.map_some] at hlookup
      exact Option.some.inj hlookup
  · rw [if_neg hf, Option.map_eq_none_iff] at hlookup
    push Not at hf
    rw [hlookup, sizeOf_of_absent hf]
    rfl

theorem sizeOf_lt {l : List Item} (h : Recorded l) (f : U32) : sizeOf l f < 2147483648 := by
  by_cases hf : ∃ x ∈ l, x.flowID = f
  · obtain ⟨x, hx, rfl⟩ := hf
    rw [sizeOf_of_mem h hx]
    exact h.size_lt x hx
  · push Not at hf
    rw [sizeOf_of_absent hf]
    decide

theorem lookup_foldl_absDelta (f : U32) {es : List (Sigma fun _ : U32 => U32)} (h : es.NodupKeys) (m : StatMap) :
    (es.foldl (fun m it => m.insert it.1 (absDelta ((m.lookup it.1).getD 0) it.2)) m).lookup f =
      match es.dlookup f with
      | some d => some (absDelta ((m.lookup f).getD 0) d)
      | none => m.lookup f := by
  induction es generalizing m with
  | nil => rfl
  | cons e es ih =>
    rw [List.nodupKeys_cons] at h
    rw [List.foldl_cons, ih h.2]
    obtain ⟨k, d⟩ := e
    by_cases hk : k = f
    · subst hk
      rw [List.dlookup_eq_none.mpr h.1, List.dlookup_cons_eq, AList.lookup_insert]
    · rw [List.dlookup_cons_ne _ _ (Ne.symm hk), AList.lookup_insert_ne (Ne.symm hk)]

theorem lookup_updateStats (prev cur : StatMap) (f : U32) :
    (updateStats prev cur).lookup f = match cur.lookup f with
      | some d => some (absDelta ((prev.lookup f).getD 0) d)
      | none => prev.lookup f :=
  lookup_foldl_absDelta f cur.nodupKeys prev

/-! ## The report -/

theorem takeWhile_sizes {l : List Item} (h : l.Pairwise fun x y => y.size ≤ x.size) :
    (l.takeWhile fun x => decide (1 ≤ x.size.val)) = changes l := by
  rw [Keyed.takeWhile_eq_filter]
  · apply List.filter_congr
    intro x _
    rw [Bool.eq_iff_iff, decide_eq_true_eq, bne_iff_ne, Nat.one_le_iff_ne_zero, ne_eq, ne_eq, Fin.ext_iff]
    rfl
  · apply h.imp
    intro x y hxy hy
    exact decide_eq_true ((of_decide_eq_true hy).trans hxy)

/-- The report is the map, sorted, without the flows that did not change. -/
theorem TestHeavyChange_NO_MAP_eq (pdata1 pdata2 : Nat → Item) :
    TestHeavyChange_NO_MAP pdata1 pdata2 =
      changes (((updateStats (get_stat_map pdata1) (get_stat_map pdata2)).entries.map fun it =>
        (⟨it.1, it.2⟩ : Item)).mergeSort fun x y => decide (y.size ≤ x.size)) := by
  unfold TestHeavyChange_NO_MAP
  apply takeWhile_sizes
  exact List.pairwise_mergeSort' (Order.Preimage Item.size (· ≥ ·)) _

/-- The updated map has the changes of the flows that it lists with a size. -/
theorem lookup_updateStats_iff {pdata1 pdata2 : Nat → Item} (h1 : Recorded (curList pdata1 NUM_HEAVY))
    (h2 : Recorded (curList pdata2 NUM_HEAVY)) {x : Item} (hx : x.size ≠ 0) :
    (updateStats (get_stat_map pdata1) (get_stat_map pdata2)).lookup x.flowID = some x.size ↔
      x.size.val = change (sizeOf (curList pdata1 NUM_HEAVY) x.flowID) (sizeOf (curList pdata2 NUM_HEAVY) x.flowID) := by
  have hpos : x.size.val ≠ 0 := fun h0 => hx (Fin.ext h0)
  have hl2 := lookup_get_stat_map h2 x.flowID
  have hprev := getD_lookup_get_stat_map h1 x.flowID
  rw [lookup_updateStats]
  cases hcur : (get_stat_map pdata2).lookup x.flowID with
  | none =>
    rw [hcur, Option.map_none] at hl2
    have habsent : ∀ y ∈ curList pdata2 NUM_HEAVY, y.flowID ≠ x.flowID := by
      by_contra hno
      push Not at hno
      rw [if_pos hno] at hl2
      exact absurd hl2 (by simp)
    have hch : ∀ k, change k 0 = k := fun k => by simp [change]
    rw [sizeOf_of_absent habsent, hch, ← hprev]
    cases (get_stat_map pdata1).lookup x.flowID with
    | none => exact iff_of_false (by simp) hpos
    | some d =>
      rw [Option.some.injEq, Option.getD_some, eq_comm]
      exact Fin.ext_iff
  | some d =>
    rw [hcur, Option.map_some] at hl2
    have hd : d.val = sizeOf (curList pdata2 NUM_HEAVY) x.flowID := by
      split_ifs at hl2
      exact Option.some.inj hl2
    rw [Option.some.injEq, ← hprev, ← hd, ← absDelta_val, eq_comm]
    · exact Fin.ext_iff
    · rw [hprev]
      exact sizeOf_lt h1 x.flowID
    · rw [hd]
      exact sizeOf_lt h2 x.flowID

theorem TestHeavyChange_NO_MAP_spec {pdata1 pdata2 : Nat → Item} (h1 : Recorded (curList pdata1 NUM_HEAVY))
    (h2 : Recorded (curList pdata2 NUM_HEAVY)) :
    ((TestHeavyChange_NO_MAP pdata1 pdata2).map Item.flowID).Nodup ∧
      ∀ x, x ∈ TestHeavyChange_NO_MAP pdata1 pdata2 ↔ x.size ≠ 0 ∧
        x.size.val = change (sizeOf (curList pdata1 NUM_HEAVY) x.flowID) (sizeOf (curList pdata2 NUM_HEAVY) x.flowID) := by
  have hlookup := fun x => lookup_updateStats_iff h1 h2 (x := x)
  rw [TestHeavyChange_NO_MAP_eq]
  generalize updateStats (get_stat_map pdata1) (get_stat_map pdata2) = stats at *
  have hperm := List.mergeSort_perm (stats.entries.map fun it => (⟨it.1, it.2⟩ : Item))
    fun x y => decide (y.size ≤ x.size)
  constructor
  · have hkeys := (hperm.map Item.flowID).nodup_iff
    rw [List.map_map] at hkeys
    exact (hkeys.mpr stats.nodupKeys).sublist (List.filter_sublist.map _)
  · intro x
    rw [mem_changes, hperm.mem_iff, and_comm]
    refine and_congr_right fun hx => ?_
    rw [← hlookup x hx, List.mem_map]
    constructor
    · rintro ⟨it, hit, rfl⟩
      exact AList.mem_lookup_iff.mpr hit
    · exact fun h => ⟨_, AList.mem_lookup_iff.mp h, rfl⟩

theorem Lists.perm_TestHeavyChange_NO_MAP {pdata1 pdata2 : Nat → Item} (h1 : Recorded (curList pdata1 NUM_HEAVY))
    (h2 : Recorded (curList pdata2 NUM_HEAVY)) {l : List Item} {count : Nat}
    (h : Lists (curList pdata2 NUM_HEAVY) (curList pdata1 NUM_HEAVY) l count) :
    (changes l).Perm (TestHeavyChange_NO_MAP pdata1 pdata2) := by
  obtain ⟨hdistinct, hmem⟩ := TestHeavyChange_NO_MAP_spec h1 h2
  apply (List.perm_ext_iff_of_nodup (List.Nodup.of_map _ h.distinct) (List.Nodup.of_map _ hdistinct)).mpr
  intro x
  rw [h.mem_iff, hmem, change_comm]

/-! ## The change list and its count -/

/-- **`OHeavyChange` lists every change once**, in non-increasing order, and returns their number. -/
theorem OHeavyChange_spec {hash : U32 → U32} {rand : Nat → Int} {mem : Tables} {HeavyHitterList : Nat → Item}
    {numHeavy numBucket maxnumBucket : Nat} (h2 : numHeavy ≤ 2 ^ 29) (hb : 1 ≤ numBucket) (hmax : maxnumBucket ≤ 256)
    (hcur : Recorded (curList HeavyHitterList numHeavy)) (hprev : Recorded (prevList HeavyHitterList numHeavy))
    {HeavyChangeList : List Item} {count : Nat}
    (h : OHeavyChange hash rand mem HeavyHitterList numHeavy numBucket maxnumBucket 32 = some (HeavyChangeList, count)) :
    HeavyChangeList.length = 2 * numHeavy ∧
      Lists (curList HeavyHitterList numHeavy) (prevList HeavyHitterList numHeavy) HeavyChangeList count ∧
      (numHeavy = NUM_HEAVY →
        (changes HeavyChangeList).Perm
          (TestHeavyChange_NO_MAP (fun i => HeavyHitterList (NUM_HEAVY + i)) HeavyHitterList) ∧
        count = (TestHeavyChange_NO_MAP (fun i => HeavyHitterList (NUM_HEAVY + i)) HeavyHitterList).length) := by
  obtain ⟨hlen, hlists⟩ := OHeavyChange_lists h2 hb hmax hcur hprev h
  refine ⟨hlen, hlists, ?_⟩
  rintro rfl
  have hperm := hlists.perm_TestHeavyChange_NO_MAP hprev hcur
  exact ⟨hperm, by rw [hlists.count_eq, hperm.length_eq]⟩

/-- Two flows of each period in one bucket. -/
theorem OHeavyChange_spec_two :
    Lists [⟨5, 9⟩, ⟨7, 2⟩] [⟨7, 3⟩, ⟨6, 4⟩] [⟨5, 9⟩, ⟨6, 4⟩, ⟨7, 1⟩, dummyItem] 3 :=
  (@OHeavyChange_spec id (fun _ => 0) ⟨fun _ => dummyItem, fun _ => dummyItem⟩
    (fun i => ([⟨5, 9⟩, ⟨7, 2⟩, ⟨7, 3⟩, ⟨6, 4⟩] : List Item).getD i dummyItem) 2 1 256 (by decide) (by decide) (by decide)
    (by decide +kernel) (by decide +kernel) [⟨5, 9⟩, ⟨6, 4⟩, ⟨7, 1⟩, dummyItem] 3 (by decide +kernel)).2.1

end FOSketch.Heavy
