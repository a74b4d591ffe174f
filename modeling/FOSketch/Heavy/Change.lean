import FOSketch.Heavy.Table
import FOSketch.Loop
import FOSketch.Sorter

/-!
# `OHeavyChange`

Both heavy lists are shuffled and hashed into the bucket table, the buckets are matched one by one and read back. The
shuffles and the table leave each list as it was up to order, and all items of a flow come to one bucket (`Placed`), so
the matched buckets together hold every change once (`mem_matchedAll_iff`, `matchedAll_pairwise`).
-/

namespace FOSketch.Heavy

open Loop Network

/-! ## The routine -/

/-- `greater_SP` on `ShufflePair`s. -/
def greater_SP (pi pj : ShufflePair) : Bool := decide (pj.index < pi.index)

def smallerItem (pi pj : Item) : Bool := decide (pi.size < pj.size)

/-- `oeShuffPair` or `bsShuffPair`. -/
def sortPairs (num : Nat) (pairs : List ShufflePair) : List ShufflePair :=
  if testPo2 num then OddEvenMergeSorter.sort greater_SP pairs num else BitonicSorter.sort greater_SP pairs num

/-- `num` items with random indices, sorted by them; `rand i` is what `rand` returns for item `i`. -/
def shufflePairs (num range : Nat) (rand : Nat → Int) (list : Nat → Item) : List ShufflePair :=
  sortPairs num ((List.range num).map fun i => ⟨toBid (toU32 (rand i) % range), list i⟩)

/-- `ind`: a random bucket for an item without a flow. -/
def bucketOf (hash : U32 → U32) (numBucket : Nat) (r : Int) (f : U32) : Nat :=
  OMove (toU32 r % numBucket) ((hash f).val % numBucket) (f == 0)

/-- The items of a loop with their buckets; `rand i` is what `rand` returns in turn `i`. -/
def targets (hash : U32 → U32) (numBucket : Nat) (rand : Nat → Int) (pairs : List ShufflePair) : List (Nat × Item) :=
  pairs.zipIdx.map fun p => (bucketOf hash numBucket (rand p.2) p.1.elem.flowID, p.1.elem)

/-- What the memory for the tables holds. -/
structure Tables where
  BucketTable : Nat → Item
  tmpBucketTable : Nat → Item

/-- The table when both lists were inserted. -/
def buildTable (hash : U32 → U32) (rand : Nat → Int) (mem : Tables) (HeavyHitterList : Nat → Item)
    (numHeavy numBucket maxnumBucket maxsizeBucket : Nat) : Option Table := do
  let pHeavyListPreDlt := shufflePairs numHeavy numBucket rand fun i => HeavyHitterList (numHeavy + i)
  let t : Table := ⟨mem.BucketTable, mem.tmpBucketTable, fun _ => ⟨0, 0⟩, 0⟩
  let t ← (targets hash numBucket (fun i => rand (numHeavy + i)) pHeavyListPreDlt).foldlM
    (fun t p => insertPre t p.1 p.2) t
  let t := startCur t
  let pHeavyListDlt := shufflePairs numHeavy numBucket (fun i => rand (2 * numHeavy + i)) HeavyHitterList
  (targets hash numBucket (fun i => rand (3 * numHeavy + i)) pHeavyListDlt).foldlM
    (fun t p => insertCur maxnumBucket maxsizeBucket t p.1 p.2) t

/-- `oeItemDESC` or `bsItemDESC` on twice `numHeavy` items. -/
def sortDESC (numHeavy : Nat) (list : List Item) : List Item :=
  if testPo2 numHeavy then OddEvenMergeSorter.sort smallerItem list (numHeavy * 2)
  else BitonicSorter.sort smallerItem list (numHeavy * 2)

/-- The first `2 * numHeavy` entries of `HeavyChangeList`, and the count; `none` where the routine gives up. The shuffled
lists lie in `HeavyChangeList`, too, but nothing reads them any more when the table is copied back. -/
def OHeavyChange (hash : U32 → U32) (rand : Nat → Int) (mem : Tables) (HeavyHitterList : Nat → Item)
    (numHeavy numBucket maxnumBucket maxsizeBucket : Nat) : Option (List Item × Nat) := do
  let t ← buildTable hash rand mem HeavyHitterList numHeavy numBucket maxnumBucket maxsizeBucket
  let t := (List.range numBucket).foldl (deltaBucket maxsizeBucket) t
  let HeavyChangeList := (List.range numBucket).flatMap (t.content maxsizeBucket)
  if HeavyChangeList.length ≠ 2 * numHeavy then none
  else
    let HeavyChangeList := sortDESC numHeavy HeavyChangeList
    let count := HeavyChangeList.foldl (fun count x => count + OMove 1 0 (decide (0 < x.size))) 0
    some (HeavyChangeList, count)

/-! ## Shuffling -/

theorem sortPairs_perm (num : Nat) (pairs : List ShufflePair) : (sortPairs num pairs).Perm pairs := by
  unfold sortPairs
  split_ifs
  · exact OddEvenMergeSorter.sort_perm _ _ _
  · exact BitonicSorter.sort_perm _ _ _

theorem shufflePairs_perm (num range : Nat) (rand : Nat → Int) (list : Nat → Item) :
    ((shufflePairs num range rand list).map ShufflePair.elem).Perm ((List.range num).map list) := by
  have hpairs : ((List.range num).map fun i => (⟨toBid (toU32 (rand i) % range), list i⟩ : ShufflePair)).map
      ShufflePair.elem = (List.range num).map list := by rw [List.map_map]; rfl
  rw [← hpairs]
  exact (sortPairs_perm num _).map _

/-! ## Placing -/

def group (ps : List (Nat × Item)) (i : Nat) : List Item := (ps.filter fun p => p.1 == i).map Prod.snd

/-- Every item goes to a bucket, and an item with a flow to the bucket of its flow. -/
structure Placed (hash : U32 → U32) (numBucket : Nat) (ps : List (Nat × Item)) : Prop where
  lt : ∀ p ∈ ps, p.1 < numBucket
  eq : ∀ p ∈ ps, p.2.flowID ≠ 0 → p.1 = (hash p.2.flowID).val % numBucket

theorem targets_placed (hash : U32 → U32) {numBucket : Nat} (h : 0 < numBucket) (rand : Nat → Int)
    (pairs : List ShufflePair) : Placed hash numBucket (targets hash numBucket rand pairs) := by
  have hflow : ∀ (r : Int) (f : U32), f ≠ 0 → bucketOf hash numBucket r f = (hash f).val % numBucket := by
    intro r f hf
    rw [bucketOf, beq_eq_false_iff_ne.mpr hf, OMove_false]
  constructor
  · intro p hp
    obtain ⟨q, -, rfl⟩ := List.mem_map.mp hp
    dsimp only
    unfold bucketOf OMove
    split_ifs
    · exact Nat.mod_lt _ h
    · exact Nat.mod_lt _ h
  · intro p hp hf
    obtain ⟨q, -, rfl⟩ := List.mem_map.mp hp
    exact hflow _ _ hf

theorem targets_snd (hash : U32 → U32) (numBucket : Nat) (rand : Nat → Int) (pairs : List ShufflePair) :
    (targets hash numBucket rand pairs).map Prod.snd = pairs.map ShufflePair.elem := by
  have hzip : pairs.zipIdx.map Prod.fst = pairs := List.zipIdx_map_fst ..
  conv_rhs => rw [← hzip]
  rw [targets, List.map_map, List.map_map]
  rfl

/-- How many of `n` consecutive numbers a bucket gets that takes every `k`-th. -/
theorem countP_residue_le {k : Nat} (hk : 0 < k) (n a b : Nat) :
    ((List.range n).countP fun i => (a + i) % k == b) ≤ n / k + 1 := by
  have hcount := Nat.count_modEq_card n hk (b + k * a - a)
  have ha : a ≤ k * a := Nat.le_mul_of_pos_left a hk
  have himp : ∀ i, ((a + i) % k == b) = true → i ≡ b + k * a - a [MOD k] := by
    intro i hi
    have hb : (a + i) % k = b := beq_iff_eq.mp hi
    apply Nat.ModEq.add_left_cancel' a
    rw [Nat.add_sub_cancel' (by omega), ← hb]
    unfold Nat.ModEq
    rw [Nat.add_mul_mod_self_left, Nat.mod_mod]
  have hle : ((List.range n).countP fun i => (a + i) % k == b) ≤ n.count (· ≡ b + k * a - a [MOD k]) := by
    rw [Nat.count_eq_card_filter_range, Finset.card_def, Finset.filter_val, ← Multiset.countP_eq_card_filter]
    exact List.countP_mono_left fun i _ hi => decide_eq_true (himp i hi)
  refine hle.trans (hcount.le.trans (Nat.add_le_add_left ?_ _))
  split_ifs
  · exact le_rfl
  · exact Nat.zero_le _

theorem group_nil (i : Nat) : group [] i = [] := rfl

theorem group_cons (p : Nat × Item) (ps : List (Nat × Item)) (i : Nat) :
    group (p :: ps) i = if p.1 = i then p.2 :: group ps i else group ps i := by
  unfold group
  by_cases hi : p.1 = i
  · simp [hi]
  · simp [hi]

theorem group_append (ps : List (Nat × Item)) (p : Nat × Item) :
    group (ps ++ [p]) = Function.update (group ps) p.1 (group ps p.1 ++ [p.2]) := by
  funext i
  unfold group
  by_cases hi : i = p.1
  · subst hi
    rw [Function.update_self, List.filter_append, List.map_append]
    simp
  · rw [Function.update_of_ne hi, List.filter_append, List.map_append]
    simp [Ne.symm hi]

theorem group_sublist (ps : List (Nat × Item)) (i : Nat) : (group ps i).Sublist (ps.map Prod.snd) :=
  List.filter_sublist.map _

/-- A list of buckets with one element more in one of them. -/
theorem flatMap_cons_perm {α : Type*} {n i : Nat} (hi : i < n) {f g : Nat → List α} {x : α} (hself : g i = x :: f i)
    (hother : ∀ j ≠ i, g j = f j) : ((List.range n).flatMap g).Perm (x :: (List.range n).flatMap f) := by
  have hperm : (List.range n).Perm (i :: (List.range n).erase i) := List.perm_cons_erase (List.mem_range.mpr hi)
  have hrest : ((List.range n).erase i).flatMap g = ((List.range n).erase i).flatMap f := by
    apply List.flatMap_congr
    intro j hj
    exact hother j ((List.nodup_range.mem_erase_iff.mp hj).1)
  have hg := hperm.flatMap_right g
  have hf := hperm.flatMap_right f
  rw [List.flatMap_cons, hself, hrest, List.cons_append] at hg
  rw [List.flatMap_cons] at hf
  exact hg.trans (hf.symm.cons x)

theorem flatMap_group_perm {n : Nat} {ps : List (Nat × Item)} (hps : ∀ p ∈ ps, p.1 < n) :
    ((List.range n).flatMap (group ps)).Perm (ps.map Prod.snd) := by
  induction ps with
  | nil =>
    have hnil : group [] = fun _ => [] := rfl
    rw [hnil, List.flatMap_eq_nil_iff.mpr fun _ _ => rfl]
    exact List.Perm.refl _
  | cons p ps ih =>
    have hself : group (p :: ps) p.1 = p.2 :: group ps p.1 := by
      rw [group_cons, if_pos rfl]
    have hother : ∀ j ≠ p.1, group (p :: ps) j = group ps j := fun j hj => by
      rw [group_cons, if_neg (Ne.symm hj)]
    apply (flatMap_cons_perm (hps p List.mem_cons_self) hself hother).trans
    exact (ih fun q hq => hps q (List.mem_cons_of_mem p hq)).cons p.2

/-- A bucket that holds all items of a flow. -/
theorem find?_group {ps : List (Nat × Item)} {f : U32} {i : Nat} (h : ∀ p ∈ ps, p.2.flowID = f → p.1 = i) :
    (group ps i).find? (fun x => x.flowID == f) = (ps.map Prod.snd).find? fun x => x.flowID == f := by
  induction ps with
  | nil => rfl
  | cons p ps ih =>
    have hrest := ih fun q hq => h q (List.mem_cons_of_mem p hq)
    unfold group at *
    by_cases hp : p.1 = i
    · simp only [List.filter_cons, hp, beq_self_eq_true, if_true, List.map_cons, List.find?_cons, hrest]
    · have hne : p.2.flowID ≠ f := fun he => hp (h p List.mem_cons_self he)
      simp only [List.filter_cons, beq_eq_false_iff_ne.mpr hp, Bool.false_eq_true, if_false, hrest, List.map_cons,
        List.find?_cons, beq_eq_false_iff_ne.mpr hne]

/-- A flow is found in its bucket only. -/
theorem sizeOf_group {hash : U32 → U32} {numBucket : Nat} {ps : List (Nat × Item)} (h : Placed hash numBucket ps) {f : U32}
    (hf : f ≠ 0) (i : Nat) :
    sizeOf (group ps i) f = if i = (hash f).val % numBucket then sizeOf (ps.map Prod.snd) f else 0 := by
  split_ifs with hi
  · unfold sizeOf
    rw [find?_group fun p hp he => ?_]
    rw [h.eq p hp (by rw [he]; exact hf), he, hi]
  · apply sizeOf_of_absent
    intro x hx he
    obtain ⟨p, hp, rfl⟩ := List.mem_map.mp hx
    obtain ⟨hmem, hpi⟩ := List.mem_filter.mp hp
    apply hi
    rw [← beq_iff_eq.mp hpi, h.eq p hmem (by rw [he]; exact hf), he]

/-! ## The table holds the groups -/

theorem foldlM_insertPre {ps : List (Nat × Item)} {t t' : Table}
    (h : ps.foldlM (fun t p => insertPre t p.1 p.2) t = some t') (done : List (Nat × Item))
    (hcontent : t.preContent = group done) (hle : ∀ i, (t.idcList i).ind1 ≤ BT_BUCKET_SIZE) :
    t'.preContent = group (done ++ ps) ∧ t'.tmpCount = t.tmpCount ∧ ∀ i, (t'.idcList i).ind1 ≤ BT_BUCKET_SIZE := by
  refine foldlM_done (P := fun d u => u.preContent = group d ∧ u.tmpCount = t.tmpCount ∧
    ∀ i, (u.idcList i).ind1 ≤ BT_BUCKET_SIZE) ?_ h ⟨hcontent, rfl, hle⟩
  rintro p - d u u₁ h1 ⟨hd, htmp, hfits⟩
  obtain ⟨h3, h4, h5⟩ := insertPre_spec h1 hfits
  refine ⟨?_, h4.trans htmp, h5⟩
  rw [h3, hd, group_append]

theorem foldlM_insertCur {maxnumBucket : Nat} (hmax : maxnumBucket ≤ 256) {ps : List (Nat × Item)} {t t' : Table}
    (h : ps.foldlM (fun t p => insertCur maxnumBucket 32 t p.1 p.2) t = some t') (hrows : Rows t) (pre : Nat → List Item)
    (done : List (Nat × Item)) (hcontent : t.content 32 = fun i => pre i ++ group done i) :
    Rows t' ∧ t'.content 32 = (fun i => pre i ++ group (done ++ ps) i) ∧ ∀ i, (t'.idcList i).ind1 = (t.idcList i).ind1 := by
  refine foldlM_done (P := fun d u => Rows u ∧ (u.content 32 = fun i => pre i ++ group d i) ∧
    ∀ i, (u.idcList i).ind1 = (t.idcList i).ind1) ?_ h ⟨hrows, hcontent, fun _ => rfl⟩
  rintro p - d u u₁ h1 ⟨hu, hd, hind⟩
  obtain ⟨h3, h4, h5⟩ := insertCur_spec hmax hu h1
  refine ⟨h3, ?_, fun i => (h5 i).trans (hind i)⟩
  funext i
  rw [h4, hd, group_append]
  by_cases hi : i = p.1
  · rw [hi, Function.update_self, Function.update_self, List.append_assoc]
  · rw [Function.update_of_ne hi, Function.update_of_ne hi]

def matchedGroup (pre cur : List (Nat × Item)) (i : Nat) : List Item :=
  (ODelta (group pre i) (group cur i) 1).1 ++ (ODelta (group pre i) (group cur i) 1).2

theorem foldl_deltaBucket {t : Table} (h : Rows t) {pre cur : List (Nat × Item)}
    (hcontent : t.content 32 = fun i => group pre i ++ group cur i) (hind1 : ∀ i, (t.idcList i).ind1 = (group pre i).length)
    (n : Nat) :
    Rows ((List.range n).foldl (deltaBucket 32) t) ∧ ((List.range n).foldl (deltaBucket 32) t).idcList = t.idcList ∧
      ((List.range n).foldl (deltaBucket 32) t).content 32 =
        fun i => if i < n then matchedGroup pre cur i else group pre i ++ group cur i := by
  induction n with
  | zero => exact ⟨h, rfl, by simpa using hcontent⟩
  | succ n ih =>
    obtain ⟨ih1, ih2, ih3⟩ := ih
    rw [List.range_succ, List.foldl_append, List.foldl_cons, List.foldl_nil]
    obtain ⟨h1, h2, h3⟩ := deltaBucket_spec ih1 n
    refine ⟨h1, h2.trans ih2, ?_⟩
    rw [h3, ih2, ih3]
    funext i
    by_cases hi : i = n
    · subst hi
      rw [Function.update_self, if_pos (Nat.lt_succ_self i)]
      dsimp only
      rw [if_neg (lt_irrefl i), hind1, deltaList, List.take_left, List.drop_left]
      rfl
    · rw [Function.update_of_ne hi]
      by_cases hlt : i < n
      · rw [if_pos hlt, if_pos (by omega)]
      · rw [if_neg hlt, if_neg (by omega)]

/-! ## All buckets together -/

section Matched
variable {hash : U32 → U32} {numBucket : Nat} {pre cur : List (Nat × Item)} (hpre : Placed hash numBucket pre)
  (hcur : Placed hash numBucket cur) (hp : Recorded (pre.map Prod.snd)) (hc : Recorded (cur.map Prod.snd))

def matchedAll (numBucket : Nat) (pre cur : List (Nat × Item)) : List Item :=
  (List.range numBucket).flatMap (matchedGroup pre cur)

include hpre hcur hp hc

theorem mem_matchedGroup {i : Nat} {z : Item} (hz : z.size ≠ 0) (h : z ∈ matchedGroup pre cur i) :
    i = (hash z.flowID).val % numBucket ∧
      z.size.val = change (sizeOf (pre.map Prod.snd) z.flowID) (sizeOf (cur.map Prod.snd) z.flowID) := by
  have hp' := hp.sublist (group_sublist pre i)
  have hc' := hc.sublist (group_sublist cur i)
  have hsize := (mem_ODelta_iff hp' hc' hz).mp h
  have hpos : z.size.val ≠ 0 := fun h0 => hz (Fin.ext h0)
  have hf : z.flowID ≠ 0 := by
    intro h0
    rw [h0, sizeOf_zero hp', sizeOf_zero hc'] at hsize
    exact hpos hsize
  rw [sizeOf_group hpre hf, sizeOf_group hcur hf] at hsize
  split_ifs at hsize with hi
  · exact ⟨hi, hsize⟩
  · exact absurd hsize hpos

theorem mem_matchedAll_iff (hb : 0 < numBucket) {z : Item} (hz : z.size ≠ 0) :
    z ∈ matchedAll numBucket pre cur ↔
      z.size.val = change (sizeOf (pre.map Prod.snd) z.flowID) (sizeOf (cur.map Prod.snd) z.flowID) := by
  unfold matchedAll
  rw [List.mem_flatMap]
  constructor
  · rintro ⟨i, -, hi⟩
    exact (mem_matchedGroup hpre hcur hp hc hz hi).2
  · intro hsize
    have hpos : z.size.val ≠ 0 := fun h0 => hz (Fin.ext h0)
    have hf : z.flowID ≠ 0 := by
      intro h0
      rw [h0, sizeOf_zero hp, sizeOf_zero hc] at hsize
      exact hpos hsize
    refine ⟨(hash z.flowID).val % numBucket, List.mem_range.mpr (Nat.mod_lt _ hb), ?_⟩
    apply (mem_ODelta_iff (hp.sublist (group_sublist pre _)) (hc.sublist (group_sublist cur _)) hz).mpr
    rw [sizeOf_group hpre hf, sizeOf_group hcur hf, if_pos rfl, if_pos rfl, hsize]

theorem matchedAll_pairwise : (matchedAll numBucket pre cur).Pairwise Apart := by
  unfold matchedAll
  rw [List.pairwise_flatMap]
  constructor
  · intro i _
    exact ODelta_pairwise (hp.sublist (group_sublist pre i)) (hc.sublist (group_sublist cur i))
  · refine List.nodup_range.imp fun {i j} hij x hx y hy hsx hsy he => hij ?_
    rw [(mem_matchedGroup hpre hcur hp hc hsx hx).1, (mem_matchedGroup hpre hcur hp hc hsy hy).1, he]

end Matched

/-! ## The change list -/

/-- The first half of `HeavyHitterList`. -/
def curList (HeavyHitterList : Nat → Item) (numHeavy : Nat) : List Item := (List.range numHeavy).map HeavyHitterList

/-- The second half, the flows of the period before. -/
def prevList (HeavyHitterList : Nat → Item) (numHeavy : Nat) : List Item :=
  (List.range numHeavy).map fun i => HeavyHitterList (numHeavy + i)

def changes (l : List Item) : List Item := l.filter fun x => x.size != 0

theorem mem_changes {l : List Item} {x : Item} : x ∈ changes l ↔ x ∈ l ∧ x.size ≠ 0 := by
  unfold changes
  rw [List.mem_filter, bne_iff_ne]

/-- The list is in order and has one entry for every flow whose size changed, and `count` counts them. -/
structure Lists (cur prev : List Item) (l : List Item) (count : Nat) : Prop where
  sorted : l.Pairwise fun x y => y.size ≤ x.size
  distinct : ((changes l).map Item.flowID).Nodup
  mem_iff : ∀ x, x ∈ changes l ↔ x.size ≠ 0 ∧ x.size.val = change (sizeOf cur x.flowID) (sizeOf prev x.flowID)
  count_eq : count = (changes l).length

theorem change_comm (a b : Nat) : change a b = change b a := by
  unfold change
  omega

theorem smallerItem_compares : Compares smallerItem fun x => OrderDual.toDual x.size := fun _ _ => rfl

theorem apart_nodup {l : List Item} (h : l.Pairwise Apart) : ((changes l).map Item.flowID).Nodup := by
  unfold changes
  rw [List.Nodup, List.pairwise_map, List.pairwise_filter]
  exact h.imp fun hxy hx hy => hxy (bne_iff_ne.mp hx) (bne_iff_ne.mp hy)

theorem apart_perm {l r : List Item} (h : l.Pairwise Apart) (hp : r.Perm l) : r.Pairwise Apart :=
  (hp.pairwise_iff fun {_ _} hxy hy hx => (hxy hx hy).symm).mpr h

theorem foldl_count (l : List Item) (k : Nat) :
    l.foldl (fun count x => count + OMove 1 0 (decide (0 < x.size))) k = k + (changes l).length := by
  induction l generalizing k with
  | nil => rfl
  | cons x l ih =>
    rw [List.foldl_cons, ih, changes, changes, List.filter_cons]
    by_cases hx : x.size = 0
    · simp [hx]
    · have hpos : 0 < x.size := Fin.pos_iff_ne_zero.mpr hx
      simp only [hpos, decide_true, OMove_true, bne_iff_ne.mpr hx, if_true, List.length_cons]
      omega

theorem sortDESC_spec {numHeavy : Nat} (h2 : numHeavy ≤ 2 ^ 29) {l : List Item} (hl : l.length = 2 * numHeavy) :
    ((sortDESC numHeavy l).Pairwise fun x y => y.size ≤ x.size) ∧ (sortDESC numHeavy l).Perm l := by
  have hlen : l.length = numHeavy * 2 := by omega
  unfold sortDESC
  rw [← hlen]
  cases hpo2 : testPo2 numHeavy with
  | true =>
    obtain ⟨e, he⟩ := testPo2_iff.mp hpo2
    have hpow : l.length = 2 ^ (e + 1) := by rw [hlen, he, pow_succ]
    rw [if_pos rfl]
    exact ⟨OddEvenMergeSorter.sort_pairwise smallerItem_compares hpow (by omega), OddEvenMergeSorter.sort_perm _ _ _⟩
  | false =>
    rw [if_neg Bool.false_ne_true]
    exact ⟨BitonicSorter.sort_pairwise smallerItem_compares (by omega), BitonicSorter.sort_perm _ _ _⟩

/-- Between the loops every bucket is in the table. -/
theorem startCur_rows {t : Table} (hle : ∀ i, (t.idcList i).ind1 ≤ BT_BUCKET_SIZE) :
    Rows (startCur t) ∧ (startCur t).content 32 = t.preContent := by
  have hinside : ∀ i, ¬ BT_BUCKET_SIZE < ((startCur t).idcList i).ind2 := fun i => not_lt.mpr (hle i)
  refine ⟨⟨fun i => le_rfl, fun i => (hle i).trans (by decide), fun i hi => absurd hi (hinside i),
    fun i j hi _ => absurd hi (hinside i)⟩, ?_⟩
  funext i
  rw [content_inside (hle i)]
  rfl

/-- **The merged buckets**: after both loops and the differences the buckets hold the matched items. -/
theorem merged_buckets {pre cur : List (Nat × Item)} {t t₁ t₂ : Table} {maxnumBucket : Nat} (hmax : maxnumBucket ≤ 256)
    (hempty : ∀ i, (t.idcList i).ind1 = 0) (hpre : pre.foldlM (fun t p => insertPre t p.1 p.2) t = some t₁)
    (hcur : cur.foldlM (fun t p => insertCur maxnumBucket 32 t p.1 p.2) (startCur t₁) = some t₂) (numBucket : Nat) :
    (List.range numBucket).flatMap (((List.range numBucket).foldl (deltaBucket 32) t₂).content 32) =
      matchedAll numBucket pre cur := by
  have hnil : t.preContent = group [] := by
    funext i
    unfold Table.preContent
    rw [hempty]
    rfl
  obtain ⟨hfirst, -, hle⟩ := foldlM_insertPre hpre [] hnil fun i => (hempty i).le.trans (Nat.zero_le _)
  rw [List.nil_append] at hfirst
  obtain ⟨hrows, hcontent⟩ := startCur_rows hle
  have hstart : (startCur t₁).content 32 = fun i => group pre i ++ group [] i := by
    funext i
    rw [hcontent, hfirst, group_nil, List.append_nil]
  obtain ⟨hrows₂, hcontent₂, hind⟩ := foldlM_insertCur hmax hcur hrows (group pre) [] hstart
  rw [List.nil_append] at hcontent₂
  have hind1 : ∀ i, (t₂.idcList i).ind1 = (group pre i).length := by
    intro i
    rw [hind, ← hfirst]
    exact (Memory.length_load _ _ _).symm
  rw [(foldl_deltaBucket hrows₂ hcontent₂ hind1 numBucket).2.2]
  unfold matchedAll
  rw [List.flatMap_congr]
  intro i hi
  rw [if_pos (List.mem_range.mp hi)]

theorem OHeavyChange_lists {hash : U32 → U32} {rand : Nat → Int} {mem : Tables} {HeavyHitterList : Nat → Item}
    {numHeavy numBucket maxnumBucket : Nat} (h2 : numHeavy ≤ 2 ^ 29) (hb : 0 < numBucket) (hmax : maxnumBucket ≤ 256)
    (hcur : Recorded (curList HeavyHitterList numHeavy)) (hprev : Recorded (prevList HeavyHitterList numHeavy))
    {l : List Item} {count : Nat}
    (h : OHeavyChange hash rand mem HeavyHitterList numHeavy numBucket maxnumBucket 32 = some (l, count)) :
    l.length = 2 * numHeavy ∧ Lists (curList HeavyHitterList numHeavy) (prevList HeavyHitterList numHeavy) l count := by
  unfold OHeavyChange at h
  rw [Option.bind_eq_bind, Option.bind_eq_some_iff] at h
  obtain ⟨t, hbuild, h⟩ := h
  unfold buildTable at hbuild
  dsimp only at hbuild h
  rw [Option.bind_eq_bind, Option.bind_eq_some_iff] at hbuild
  obtain ⟨t₁, hpre, hins⟩ := hbuild
  have hpreperm := shufflePairs_perm numHeavy numBucket rand fun i => HeavyHitterList (numHeavy + i)
  have hcurperm := shufflePairs_perm numHeavy numBucket (fun i => rand (2 * numHeavy + i)) HeavyHitterList
  have hpreplaced := targets_placed hash hb (fun i => rand (numHeavy + i))
    (shufflePairs numHeavy numBucket rand fun i => HeavyHitterList (numHeavy + i))
  have hcurplaced := targets_placed hash hb (fun i => rand (3 * numHeavy + i))
    (shufflePairs numHeavy numBucket (fun i => rand (2 * numHeavy + i)) HeavyHitterList)
  rw [← targets_snd hash numBucket (fun i => rand (numHeavy + i))] at hpreperm
  rw [← targets_snd hash numBucket (fun i => rand (3 * numHeavy + i))] at hcurperm
  generalize targets hash numBucket (fun i => rand (numHeavy + i)) _ = pre at hpre hpreperm hpreplaced
  generalize targets hash numBucket (fun i => rand (3 * numHeavy + i)) _ = cur at hins hcurperm hcurplaced
  rw [merged_buckets hmax (fun _ => rfl) hpre hins numBucket] at h
  by_cases hlen : (matchedAll numBucket pre cur).length ≠ 2 * numHeavy
  · rw [if_pos hlen] at h
    exact absurd h (by simp)
  rw [if_neg hlen, Option.some.injEq, Prod.mk.injEq] at h
  rw [not_not] at hlen
  obtain ⟨rfl, rfl⟩ := h
  have hp : Recorded (pre.map Prod.snd) := hprev.perm hpreperm
  have hc : Recorded (cur.map Prod.snd) := hcur.perm hcurperm
  obtain ⟨hsorted, hperm⟩ := sortDESC_spec h2 hlen
  refine ⟨by rw [hperm.length_eq, hlen], hsorted, ?_, fun x => ?_, ?_⟩
  · exact apart_nodup (apart_perm (matchedAll_pairwise hpreplaced hcurplaced hp hc) hperm)
  · rw [mem_changes, and_comm]
    refine and_congr_right fun hx => ?_
    rw [hperm.mem_iff, mem_matchedAll_iff hpreplaced hcurplaced hp hc hb hx, sizeOf_perm hprev hpreperm,
      sizeOf_perm hcur hcurperm, change_comm]
  · rw [foldl_count, Nat.zero_add]

end FOSketch.Heavy
