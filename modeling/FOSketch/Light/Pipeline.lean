import FOSketch.Light.Update

/-!
# The stages of the light-part update

What `OUpdateCUSketch_BEx` does to the blocks of `dump`, over any records with a `Bid` for a key. `heavyStage` sorts the
heavy records, lets each id gather in one of them and sorts again; `merged` merges the light records with the first
of these; `lightStage` lets each id gather once more and sorts. When the merged records are in order, the first records
at the end are one for each light block, and hold all the records of its id held at the start (`lightStage_val`).
-/

namespace FOSketch.Light

open Network Keyed

variable {α β D : Type*}

/-! ## Sorting and merging -/

theorem sortASC_perm (greater : α → α → Bool) (po2 : Bool) (l : List α) (num : Nat) :
    (sortASC greater po2 l num).Perm l := by
  cases po2
  · exact BitonicSorter.sort_perm greater l num
  · exact OddEvenMergeSorter.sort_perm greater l num

theorem mergeASC_perm (greater : α → α → Bool) (po2 : Bool) (l : List α) (num : Nat) :
    (mergeASC greater po2 l num).Perm l := by
  cases po2
  · exact BitonicSorter.merge_perm greater l num
  · exact OddEvenMergeSorter.merge_perm greater l num

theorem sortASC_map (f : α → β) {greater : α → α → Bool} {greater' : β → β → Bool}
    (hg : ∀ x y, greater x y = greater' (f x) (f y)) (po2 : Bool) (l : List α) (num : Nat) :
    (sortASC greater po2 l num).map f = sortASC greater' po2 (l.map f) num := by
  cases po2
  · exact BitonicSorter.sort_map f greater greater' hg l num
  · exact OddEvenMergeSorter.sort_map f greater greater' hg l num

theorem mergeASC_map (f : α → β) {greater : α → α → Bool} {greater' : β → β → Bool}
    (hg : ∀ x y, greater x y = greater' (f x) (f y)) (po2 : Bool) (l : List α) (num : Nat) :
    (mergeASC greater po2 l num).map f = mergeASC greater' po2 (l.map f) num := by
  cases po2
  · exact BitonicSorter.merge_map f greater greater' hg l num
  · exact OddEvenMergeSorter.merge_map f greater greater' hg l num

theorem testPo2_length {n : Nat} {po2 : Bool} (hp : po2 = testPo2 n) : po2 = true → ∃ e, n = 2 ^ e := fun h =>
  testPo2_iff.mp (hp.symm.trans h)

theorem sortASC_append (greater : α → α → Bool) {po2 : Bool} {l : List α} (hl : l.length ≤ 2 ^ 30)
    (hp : po2 = true → ∃ e, l.length = 2 ^ e) (r : List α) :
    sortASC greater po2 (l ++ r) l.length = sortASC greater po2 l l.length ++ r := by
  cases po2
  · exact BitonicSorter.sort_append greater hl r
  · obtain ⟨e, he⟩ := hp rfl
    exact OddEvenMergeSorter.sort_append greater he r

theorem mergeASC_append (greater : α → α → Bool) {po2 : Bool} {l : List α} (hl : l.length ≤ 2 ^ 30)
    (hp : po2 = true → ∃ e, l.length = 2 ^ (e + 1)) (r : List α) :
    mergeASC greater po2 (l ++ r) l.length = mergeASC greater po2 l l.length ++ r := by
  cases po2
  · exact BitonicSorter.merge_append greater hl r
  · obtain ⟨e, he⟩ := hp rfl
    exact OddEvenMergeSorter.merge_append greater he hl r

theorem sortASC_pairwise {m : Merging α Bid} {greater : α → α → Bool} (hg : Compares greater m.key) {po2 : Bool}
    {l : List α} (hl : l.length ≤ 2 ^ 30) (hp : po2 = true → ∃ e, l.length = 2 ^ e) :
    (sortASC greater po2 l l.length).Pairwise fun x y => m.key x ≤ m.key y := by
  cases po2
  · exact BitonicSorter.sort_pairwise hg hl
  · obtain ⟨e, he⟩ := hp rfl
    exact OddEvenMergeSorter.sort_pairwise hg he hl

/-! ## The stages -/

section Stages
variable (m : Merging α Bid) (greater : α → α → Bool)

/-- The scan of the first `num` records, from a carry that it does not read. -/
def scanFirst (l : List α) (num : Nat) (tmpB : α) : List α := maxScan m (l.take num) tmpB true ++ l.drop num

def heavyStage (heavyPo2 : Bool) (dump2 : List α) (numHeavy : Nat) (tmpB : α) : List α :=
  let dump2 := sortASC greater heavyPo2 dump2 dump2.length
  let dump2 := scanFirst m dump2 numHeavy tmpB
  sortASC greater heavyPo2 dump2 dump2.length

def merged (lightPo2 : Bool) (dump dump2 : List α) : List α := mergeASC greater lightPo2 (dump ++ dump2) (dump.length * 2)

def lightStage (lightPo2 : Bool) (dump : List α) (num1Block : Nat) (tmpB : α) : List α :=
  sortASC greater lightPo2 (scanFirst m dump (num1Block * 2) tmpB) (num1Block * 2)

end Stages

@[simp] theorem length_scanFirst (m : Merging α Bid) (l : List α) (num : Nat) (tmpB : α) :
    (scanFirst m l num tmpB).length = l.length := by
  rw [scanFirst, List.length_append, length_maxScan, ← List.length_append, List.take_append_drop]

@[simp] theorem length_heavyStage (m : Merging α Bid) (greater : α → α → Bool) (heavyPo2 : Bool) (dump2 : List α)
    (numHeavy : Nat) (tmpB : α) : (heavyStage m greater heavyPo2 dump2 numHeavy tmpB).length = dump2.length := by
  unfold heavyStage
  rw [(sortASC_perm ..).length_eq, length_scanFirst, (sortASC_perm ..).length_eq]

theorem heavyStage_carry (m : Merging α Bid) (greater : α → α → Bool) (heavyPo2 : Bool) (dump2 : List α) (numHeavy : Nat)
    (tmpB tmpB' : α) :
    heavyStage m greater heavyPo2 dump2 numHeavy tmpB = heavyStage m greater heavyPo2 dump2 numHeavy tmpB' := by
  unfold heavyStage scanFirst
  dsimp only
  rw [maxScan_true m _ tmpB tmpB']

theorem heavyStage_map {m : Merging α Bid} {m' : Merging β Bid} {f : α → β} (h : m.Image m' f)
    {greater : α → α → Bool} {greater' : β → β → Bool} (hg : ∀ x y, greater x y = greater' (f x) (f y)) (heavyPo2 : Bool)
    (dump2 : List α) (numHeavy : Nat) (tmpB : α) : (heavyStage m greater heavyPo2 dump2 numHeavy tmpB).map f =
      heavyStage m' greater' heavyPo2 (dump2.map f) numHeavy (f tmpB) := by
  have hscan : ∀ l : List α, (scanFirst m l numHeavy tmpB).map f = scanFirst m' (l.map f) numHeavy (f tmpB) := by
    intro l
    rw [scanFirst, scanFirst, List.map_append, maxScan_map h, List.map_take, List.map_drop]
  unfold heavyStage
  dsimp only
  rw [sortASC_map f hg, hscan, sortASC_map f hg, List.length_map, length_scanFirst, length_scanFirst,
    (sortASC_perm ..).length_eq, (sortASC_perm ..).length_eq, List.length_map]

/-- What the arrays hold when the stages start: one light record for each id below their number, then heavy records of
such ids, then spare ones of the dummy id. -/
structure Filled (m : Merging α Bid) (dump dump2 : List α) (numHeavy : Nat) : Prop where
  ids : dump.map m.key = (List.range dump.length).map toBid
  few : dump.length ≤ 65535
  room : dump.length ≤ dump2.length
  long : dump2.length ≤ 2 ^ 30
  hit : ∀ x ∈ dump2.take numHeavy, (m.key x).val < dump.length
  spare : ∀ x ∈ dump2.drop numHeavy, m.key x = ⊤

section Facts
variable [SemilatticeSup D] [OrderBot D] {m : Merging α Bid} {val : α → D} {greater : α → α → Bool}

theorem gather_scanFirst (hm : m.Lawful val) {l : List α} (hl : l.Pairwise fun x y => m.key x ≤ m.key y) {num : Nat}
    (hd : ∀ x ∈ l.drop num, m.key x = ⊤) (tmpB : α) {b : Bid} (hb : b ≠ ⊤) :
    gather m.key val (scanFirst m l num tmpB) b = gather m.key val l b := by
  exact gather_maxScan_take hm hl hd tmpB hb

omit [OrderBot D] in
theorem count_scanFirst (hm : m.Lawful val) {l : List α} (hl : l.Pairwise fun x y => m.key x ≤ m.key y) {num : Nat}
    (hd : ∀ x ∈ l.drop num, m.key x = ⊤) (tmpB : α) {b : Bid} (hb : b ≠ ⊤) :
    ((scanFirst m l num tmpB).map m.key).count b = if b ∈ l.map m.key then 1 else 0 := by
  exact count_maxScan_take hm hl hd tmpB hb

theorem countP_le_of_drop {key : α → Bid} {l : List α} {k : Nat} (h : ∀ x ∈ l.drop k, key x = ⊤) :
    l.countP (fun x => decide (key x ≠ ⊤)) ≤ k := by
  rw [← List.take_append_drop k l, List.countP_append]
  have h1 : (l.take k).countP (fun x => decide (key x ≠ ⊤)) ≤ k :=
    List.countP_le_length.trans (List.length_take_le k l)
  have h2 : (l.drop k).countP (fun x => decide (key x ≠ ⊤)) = 0 := by
    rw [List.countP_eq_zero]
    intro x hx
    rw [h x hx]; simp
  omega

variable {dump dump2 : List α} {numHeavy : Nat} {heavyPo2 : Bool}

section Heavy

theorem drop_sort_eq_top (hg : Compares greater m.key) (h : Filled m dump dump2 numHeavy)
    (hp : heavyPo2 = testPo2 dump2.length) :
    ∀ x ∈ (sortASC greater heavyPo2 dump2 dump2.length).drop numHeavy, m.key x = ⊤ := by
  apply eq_top_of_mem_drop (sortASC_pairwise hg h.long (testPo2_length hp))
  rw [(sortASC_perm ..).countP_eq]
  exact countP_le_of_drop h.spare

theorem heavyStage_pairwise (hg : Compares greater m.key) (h : Filled m dump dump2 numHeavy)
    (hp : heavyPo2 = testPo2 dump2.length) (tmpB : α) :
    (heavyStage m greater heavyPo2 dump2 numHeavy tmpB).Pairwise fun x y => m.key x ≤ m.key y := by
  have hlen : (scanFirst m (sortASC greater heavyPo2 dump2 dump2.length) numHeavy tmpB).length = dump2.length := by
    rw [length_scanFirst, (sortASC_perm ..).length_eq]
  refine sortASC_pairwise hg (by rw [hlen]; exact h.long) (by rw [hlen]; exact testPo2_length hp)

theorem gather_heavyStage (hm : m.Lawful val) (hg : Compares greater m.key) (h : Filled m dump dump2 numHeavy)
    (hp : heavyPo2 = testPo2 dump2.length) (tmpB : α) {b : Bid} (hb : b ≠ ⊤) :
    gather m.key val (heavyStage m greater heavyPo2 dump2 numHeavy tmpB) b = gather m.key val dump2 b := by
  unfold heavyStage
  rw [gather_perm (sortASC_perm ..), gather_scanFirst hm (sortASC_pairwise hg h.long (testPo2_length hp))
    (drop_sort_eq_top hg h hp) tmpB hb, gather_perm (sortASC_perm ..)]

omit [OrderBot D] in
theorem count_heavyStage (hm : m.Lawful val) (hg : Compares greater m.key) (h : Filled m dump dump2 numHeavy)
    (hp : heavyPo2 = testPo2 dump2.length) (tmpB : α) {b : Bid} (hb : b ≠ ⊤) :
    ((heavyStage m greater heavyPo2 dump2 numHeavy tmpB).map m.key).count b =
      if b ∈ dump2.map m.key then 1 else 0 := by
  unfold heavyStage
  rw [((sortASC_perm ..).map m.key).count_eq, count_scanFirst hm (sortASC_pairwise hg h.long (testPo2_length hp))
    (drop_sort_eq_top hg h hp) tmpB hb]
  exact if_congr ((sortASC_perm ..).map m.key).mem_iff rfl rfl

/-- An id of the heavy records is a light block's or the dummy id. -/
theorem Filled.lt_or_top (h : Filled m dump dump2 numHeavy) {b : Bid} (hb : b ∈ dump2.map m.key) :
    b.val < dump.length ∨ b = ⊤ := by
  obtain ⟨x, hx, rfl⟩ := List.mem_map.mp hb
  rw [← List.take_append_drop numHeavy dump2, List.mem_append] at hx
  exact hx.imp (h.hit x) (h.spare x)

omit [OrderBot D] in
/-- At most one record of each light block remains, so all fit among as many records as there are light blocks. -/
theorem drop_heavyStage_eq_top (hm : m.Lawful val) (hg : Compares greater m.key) (h : Filled m dump dump2 numHeavy)
    (hp : heavyPo2 = testPo2 dump2.length) (tmpB : α) :
    ∀ x ∈ (heavyStage m greater heavyPo2 dump2 numHeavy tmpB).drop dump.length, m.key x = ⊤ := by
  apply eq_top_of_mem_drop (heavyStage_pairwise hg h hp tmpB)
  set l := heavyStage m greater heavyPo2 dump2 numHeavy tmpB with hl
  have hcount : ∀ b : Bid, b ≠ ⊤ → (l.map m.key).count b = if b ∈ dump2.map m.key then 1 else 0 := fun b hb =>
    count_heavyStage hm hg h hp tmpB hb
  have hnodup : ((l.map m.key).filter fun b => decide (b ≠ ⊤)).Nodup := by
    rw [List.nodup_iff_count_le_one]
    intro b
    by_cases hb : b = ⊤
    · rw [List.count_eq_zero.mpr (by rw [List.mem_filter, hb]; simp)]; omega
    · rw [List.count_filter (by simpa using hb), hcount b hb]
      split_ifs <;> omega
  have hsub : ((l.map m.key).filter fun b => decide (b ≠ ⊤)) ⊆ (List.range dump.length).map toBid := by
    intro b hb
    rw [List.mem_filter, decide_eq_true_eq] at hb
    have hmem : b ∈ dump2.map m.key := by
      by_contra hnot
      have := hcount b hb.2
      rw [if_neg hnot] at this
      exact List.count_eq_zero.mp this hb.1
    have hlt := (h.lt_or_top hmem).resolve_right hb.2
    refine List.mem_map.mpr ⟨b.val, List.mem_range.mpr hlt, Fin.ext ?_⟩
    rw [toBid_val, Nat.mod_eq_of_lt b.isLt]
  have hle := hnodup.length_le_of_subset hsub
  rwa [List.length_map, List.length_range, ← List.countP_eq_length_filter, List.countP_map] at hle

end Heavy

/-! ## The light stage -/

section Light
variable {lightPo2 : Bool}

def mergeInput (dump dump2 : List α) : List α := dump ++ dump2.take dump.length

theorem length_mergeInput (h : dump.length ≤ dump2.length) : (mergeInput dump dump2).length = dump.length * 2 := by
  rw [mergeInput, List.length_append, List.length_take, min_eq_left h]; omega

theorem merged_eq (greater : α → α → Bool) (dump dump2 : List α) (hlong : dump.length * 2 ≤ 2 ^ 30)
    (hroom : dump.length ≤ dump2.length) (hp : lightPo2 = testPo2 dump.length) : merged greater lightPo2 dump dump2 =
      mergeASC greater lightPo2 (mergeInput dump dump2) (dump.length * 2) ++ dump2.drop dump.length := by
  have hlen := length_mergeInput hroom
  rw [merged, ← hlen, ← mergeASC_append greater (by rw [hlen]; exact hlong), mergeInput, List.append_assoc,
    List.take_append_drop]
  intro ht
  obtain ⟨e, he⟩ := testPo2_length hp ht
  exact ⟨e, by rw [hlen, he, pow_succ]⟩

theorem toBid_ne_top {k : Nat} (hk : k < 65535) : toBid k ≠ ⊤ := by
  intro h
  have := congrArg Fin.val h
  rw [toBid_val, Fin.top_eq_last, Fin.val_last] at this
  omega

theorem count_ids {n k : Nat} (hn : n ≤ 65535) (hk : k < n) : ((List.range n).map toBid).count (toBid k) = 1 := by
  have hinj : ∀ i ∈ List.range n, ∀ j ∈ List.range n, toBid i = toBid j → i = j := by
    intro i hi j hj h
    rw [List.mem_range] at hi hj
    have := congrArg Fin.val h
    rw [toBid_val, toBid_val] at this
    omega
  exact List.count_eq_one_of_mem (List.nodup_range.map_on hinj) (List.mem_map_of_mem (List.mem_range.mpr hk))

theorem ids_pairwise {n : Nat} (hn : n ≤ 65535) : ((List.range n).map toBid).Pairwise (· < ·) := by
  rw [List.pairwise_map]
  refine (List.pairwise_lt_range (n := n)).imp_of_mem fun {i j} hi hj hij => ?_
  rw [List.mem_range] at hi hj
  rw [Fin.lt_def, toBid_val, toBid_val]; omega

theorem top_notMem_ids {n : Nat} (hn : n ≤ 65535) : ⊤ ∉ (List.range n).map toBid := by
  rw [List.mem_map]
  rintro ⟨i, hi, htop⟩
  rw [List.mem_range] at hi
  exact toBid_ne_top (by omega) htop

theorem getElem?_ids {n k : Nat} (hk : k < n) : ((List.range n).map toBid)[k]? = some (toBid k) := by
  rw [List.getElem?_map, List.getElem?_range hk]
  rfl

omit [SemilatticeSup D] [OrderBot D] in
theorem lightStage_append (m : Merging α Bid) (greater : α → α → Bool) {n : Nat} {l : List α} (hl : l.length = n * 2)
    (hn : n ≤ 65535) (hp : lightPo2 = testPo2 n) (r : List α) (tmpB : α) :
    lightStage m greater lightPo2 (l ++ r) n tmpB =
      sortASC greater lightPo2 (maxScan m l tmpB true) (maxScan m l tmpB true).length ++ r := by
  have hlen : (maxScan m l tmpB true).length = n * 2 := by rw [length_maxScan, hl]
  rw [lightStage, scanFirst, List.take_left' hl, List.drop_left' hl, ← hlen, sortASC_append greater (by rw [hlen]; omega)]
  intro ht
  obtain ⟨e, he⟩ := testPo2_length hp ht
  exact ⟨e + 1, by rw [hlen, he, pow_succ]⟩

/-- **The light stage** on merged records in order: its first records are one for each light block, in order of their
ids, and each holds all that its id held. -/
theorem lightStage_val (hm : m.Lawful val) (hg : Compares greater m.key) {n : Nat} {l r : List α}
    (hl : l.length = n * 2) (hn : n ≤ 65535) (hp : lightPo2 = testPo2 n) (hs : l.Pairwise fun x y => m.key x ≤ m.key y)
    (hin : ∀ k < n, toBid k ∈ l.map m.key) (hout : ∀ b ∈ l.map m.key, b.val < n ∨ b = ⊤) (tmpB : α) {k : Nat}
    (hk : k < n) : ∃ x, (lightStage m greater lightPo2 (l ++ r) n tmpB)[k]? = some x ∧ m.key x = toBid k ∧
      val x = gather m.key val l (toBid k) := by
  set s := maxScan m l tmpB true with hsdef
  have hslen : s.length = n * 2 := by rw [hsdef, length_maxScan, hl]
  have hpow : lightPo2 = true → ∃ e, s.length = 2 ^ e := by
    intro ht
    obtain ⟨e, he⟩ := testPo2_length hp ht
    exact ⟨e + 1, by rw [hslen, he, pow_succ]⟩
  have hlong : s.length ≤ 2 ^ 30 := by rw [hslen]; omega
  have hcount : ∀ b : Bid, b ≠ ⊤ → (s.map m.key).count b = if b ∈ l.map m.key then 1 else 0 := fun b hb =>
    count_maxScan hm hs tmpB hb
  have hids : ∀ b : Bid, b ≠ ⊤ → (b ∈ l.map m.key ↔ b ∈ (List.range n).map toBid) := by
    intro b hb
    rw [List.mem_map (f := toBid)]
    constructor
    · intro hmem
      refine ⟨b.val, List.mem_range.mpr ((hout b hmem).resolve_right hb), Fin.ext ?_⟩
      rw [toBid_val, Nat.mod_eq_of_lt b.isLt]
    · rintro ⟨i, hi, rfl⟩
      exact hin i (List.mem_range.mp hi)
  have hsorted : (sortASC greater lightPo2 s s.length).Pairwise fun x y => m.key x ≤ m.key y :=
    sortASC_pairwise hg hlong hpow
  have hscan : (sortASC greater lightPo2 s s.length).Perm (maxScan m (l.take l.length) tmpB true ++ l.drop l.length) := by
    rw [List.take_length, List.drop_length, List.append_nil]
    exact sortASC_perm ..
  obtain ⟨x, hx, hkey, hval⟩ := pass_val hm (List.Perm.refl l) hs hscan hsorted List.countP_le_length
    (ids_pairwise hn) (top_notMem_ids hn) hids (getElem?_ids hk)
  refine ⟨x, ?_, hkey, hval⟩
  rw [lightStage_append m greater hl hn hp, ← hsdef, List.getElem?_append_left (List.getElem?_eq_some_iff.mp hx).1, hx]

end Light

end Facts

/-! ## Sorting all at once -/

section Bitonic
variable {κ : Type*} [LinearOrder κ]

/-- Light and heavy records in one array: `BitonicSorter` sorts it, each key of the first `num` records gathers in one of
them, and it is sorted again. -/
def bitonicPass (m : Merging α κ) (greater : α → α → Bool) (l : List α) (num : Nat) (prev : α) : List α :=
  let dump := BitonicSorter.sort greater l l.length
  let dump := maxScan m (dump.take num) prev true ++ dump.drop num
  BitonicSorter.sort greater dump l.length

variable [OrderTop κ] [SemilatticeSup D] [OrderBot D] {m : Merging α κ} {val : α → D} {greater : α → α → Bool}

/-- The first records at the end are one for each key of the array. -/
theorem bitonicPass_val (hm : m.Lawful val) (hg : Compares greater m.key) {l : List α} (hlong : l.length ≤ 2 ^ 30)
    {num : Nat} (hnum : l.countP (fun x => decide (m.key x ≠ ⊤)) ≤ num) {ks : List κ} (hks : ks.Pairwise (· < ·))
    (htop : ⊤ ∉ ks) (hkeys : ∀ b ≠ ⊤, b ∈ l.map m.key ↔ b ∈ ks) (prev : α) {k : Nat} {b : κ} (hk : ks[k]? = some b) :
    ∃ x, (bitonicPass m greater l num prev)[k]? = some x ∧ m.key x = b ∧ val x = gather m.key val l b := by
  have hlen : (maxScan m ((BitonicSorter.sort greater l l.length).take num) prev true ++
      (BitonicSorter.sort greater l l.length).drop num).length = l.length := by
    rw [List.length_append, length_maxScan, ← List.length_append, List.take_append_drop,
      (BitonicSorter.sort_perm greater l _).length_eq]
  have hsorted := BitonicSorter.sort_pairwise hg (hlen.trans_le hlong)
  rw [hlen] at hsorted
  exact pass_val hm (BitonicSorter.sort_perm greater l _) (BitonicSorter.sort_pairwise hg hlong)
    (BitonicSorter.sort_perm greater _ _) hsorted hnum hks htop hkeys hk

end Bitonic

end FOSketch.Light
