import FOSketch.Heavy.Loads

/-!
# The rows of `tmpBucketTable`

A bucket that gets a seventeenth item is copied to `tmpCount * 32` in `tmpBucketTable`, but written and read from
`tmpCount * maxsizeBucket` on, and its row number is kept in one byte. So the buckets that `ODelta` gets are the two lists
only if at most one bucket moves, or the rows have 32 places and at most 256 buckets move (`deltaInput_complete_iff`).
-/

namespace FOSketch.Heavy

open Loop Memory

/-! ## The table before `ODelta` -/

/-- The fill counters and the number of rows are `uint16_t`. -/
def wrapCounters (t : Table) : Table :=
  { t with
    idcList := fun i => ⟨(t.idcList i).ind1 % 65536, (t.idcList i).ind2 % 65536⟩
    tmpCount := t.tmpCount % 65536 }

/-- The place that `BucketTable+index` is for `index = BT_BLOCK_SIZE * p`, an `int` that a `uint32_t` is assigned to. -/
def indexPlace (p : Nat) : Nat := (Int.bmod ((8 * p : Nat) : Int) 4294967296 % 18446744073709551616).toNat / 8

/-- The place that `BucketTable+BT_BLOCK_SIZE * p` is, with a `uint32_t` offset. -/
def offsetPlace (p : Nat) : Nat := 8 * p % 4294967296 / 8

/-- `insertPre` with the places as they are computed. -/
def insertPre32 (t : Table) (ind : Nat) (tmp : Item) : Option Table :=
  let idc := t.idcList ind
  if BT_BUCKET_SIZE ≤ idc.ind1 then none
  else some { t with
    BucketTable := Function.update t.BucketTable (indexPlace (BT_BUCKET_SIZE * ind + idc.ind1)) tmp
    idcList := Function.update t.idcList ind { idc with ind1 := idc.ind1 + 1 } }

/-- `insertCur` with the places as they are computed. -/
def insertCur32 (maxnumBucket maxsizeBucket : Nat) (t : Table) (ind : Nat) (tmp : Item) : Option Table :=
  let idc := t.idcList ind
  let idcList := Function.update t.idcList ind { idc with ind2 := idc.ind2 + 1 }
  let addr := offsetPlace (BT_BUCKET_SIZE * ind)
  if idc.ind2 = BT_BUCKET_SIZE then
    if maxnumBucket ≤ t.tmpCount then none
    else
      let rows := copy t.tmpBucketTable (t.tmpCount * 32) t.BucketTable addr BT_BUCKET_SIZE
      some {
        BucketTable := Function.update t.BucketTable addr (setFirstByte (t.BucketTable addr) t.tmpCount)
        tmpBucketTable := Function.update rows (t.tmpCount * maxsizeBucket + idc.ind2) tmp
        idcList := idcList
        tmpCount := t.tmpCount + 1 }
  else if BT_BUCKET_SIZE < idc.ind2 then
    if maxsizeBucket ≤ idc.ind2 then none
    else some { t with
      tmpBucketTable :=
        Function.update t.tmpBucketTable (firstByte (t.BucketTable addr) * maxsizeBucket + idc.ind2) tmp
      idcList := idcList }
  else some { t with
    BucketTable := Function.update t.BucketTable (indexPlace (BT_BUCKET_SIZE * ind + idc.ind2)) tmp
    idcList := idcList }

/-- One turn of the loop over the current flows, with the counters as wide as they are. -/
def insertCur16 (maxnumBucket maxsizeBucket : Nat) (t : Table) (ind : Nat) (tmp : Item) : Option Table :=
  (insertCur maxnumBucket maxsizeBucket t ind tmp).map wrapCounters

/-- The table just before the `ODelta` pass, or `none` where the routine returns `0`. The last check comes behind the pass,
but reads the counters only. -/
def deltaInput (hash : U32 → U32) (rand : Nat → Int) (mem : Tables) (HeavyHitterList : Nat → Item)
    (numHeavy numBucket maxnumBucket maxsizeBucket : Nat) : Option Table := do
  let t ← (prevTargets hash rand HeavyHitterList numHeavy numBucket).foldlM (fun t p => insertPre32 t p.1 p.2)
    (startTable mem)
  let t ← (curTargets hash rand HeavyHitterList numHeavy numBucket).foldlM
    (fun t p => (insertCur32 maxnumBucket maxsizeBucket t p.1 p.2).map wrapCounters) (startCur t)
  let acount := ((List.range numBucket).map fun i => (t.idcList i).ind2).sum
  if acount ≠ 2 * numHeavy then none else some t

/-- The same with places that do not come round. -/
def deltaInput16 (hash : U32 → U32) (rand : Nat → Int) (mem : Tables) (HeavyHitterList : Nat → Item)
    (numHeavy numBucket maxnumBucket maxsizeBucket : Nat) : Option Table := do
  let t ← (prevTargets hash rand HeavyHitterList numHeavy numBucket).foldlM (fun t p => insertPre t p.1 p.2)
    (startTable mem)
  let t ← (curTargets hash rand HeavyHitterList numHeavy numBucket).foldlM
    (fun t p => insertCur16 maxnumBucket maxsizeBucket t p.1 p.2) (startCur t)
  let acount := ((List.range numBucket).map fun i => (t.idcList i).ind2).sum
  if acount ≠ 2 * numHeavy then none else some t

/-! ## The places -/

theorem indexPlace_eq {p : Nat} (hp : p < 268435456) : indexPlace p = p := by
  unfold indexPlace
  rw [Int.bmod_eq_of_le (by omega) (by omega)]
  omega

theorem offsetPlace_eq {p : Nat} (hp : p < 268435456) : offsetPlace p = p := by
  unfold offsetPlace
  omega

/-- The buckets of a table of at most `2 ^ 24` lie below `2 ^ 31` bytes. -/
theorem insertPre32_eq {ind : Nat} (hind : ind < 16777216) (t : Table) (tmp : Item) :
    insertPre32 t ind tmp = insertPre t ind tmp := by
  unfold insertPre32 insertPre
  dsimp only
  split_ifs with hfull
  · rfl
  · rw [indexPlace_eq]
    unfold BT_BUCKET_SIZE at *
    omega

theorem insertCur32_eq {maxnumBucket maxsizeBucket ind : Nat} (hind : ind < 16777216) (t : Table) (tmp : Item) :
    insertCur32 maxnumBucket maxsizeBucket t ind tmp = insertCur maxnumBucket maxsizeBucket t ind tmp := by
  have haddr : offsetPlace (BT_BUCKET_SIZE * ind) = BT_BUCKET_SIZE * ind := by
    apply offsetPlace_eq
    unfold BT_BUCKET_SIZE
    omega
  unfold insertCur32 insertCur Table.loca
  dsimp only
  rw [haddr]
  split_ifs with hfull _ hgt _
  · rfl
  · rfl
  · rfl
  · rfl
  · rw [indexPlace_eq]
    unfold BT_BUCKET_SIZE at *
    omega

theorem foldlM_congr_mem {σ α : Type*} {f g : σ → α → Option σ} {l : List α} (h : ∀ s, ∀ a ∈ l, f s a = g s a) (s : σ) :
    l.foldlM f s = l.foldlM g s := by
  induction l generalizing s with
  | nil => rfl
  | cons a l ih =>
    rw [List.foldlM_cons, List.foldlM_cons, h s a List.mem_cons_self]
    congr 1
    funext s
    exact ih (fun s b hb => h s b (List.mem_cons_of_mem a hb)) s

/-- **In a table of at most `2 ^ 24` buckets** no place comes round. -/
theorem deltaInput_eq (hash : U32 → U32) (rand : Nat → Int) (mem : Tables) (list : Nat → Item) (numHeavy : Nat)
    {numBucket : Nat} (maxnumBucket maxsizeBucket : Nat) (hb : 0 < numBucket) (hsize : numBucket ≤ 16777216) :
    deltaInput hash rand mem list numHeavy numBucket maxnumBucket maxsizeBucket =
      deltaInput16 hash rand mem list numHeavy numBucket maxnumBucket maxsizeBucket := by
  have hprev := foldlM_congr_mem (f := fun t (p : Nat × Item) => insertPre32 t p.1 p.2) fun t p hp =>
    insertPre32_eq ((prevTargets_lt hash rand list numHeavy hb p hp).trans_le hsize) t p.2
  have hcur := foldlM_congr_mem
    (f := fun t (p : Nat × Item) => (insertCur32 maxnumBucket maxsizeBucket t p.1 p.2).map wrapCounters) fun t p hp =>
      congrArg (Option.map wrapCounters)
        (insertCur32_eq ((curTargets_lt hash rand list numHeavy hb p hp).trans_le hsize) t p.2)
  unfold deltaInput deltaInput16
  rw [hprev]
  simp only [hcur]
  rfl

/-! ## The counters -/

structure SameCounters (t u : Table) : Prop where
  idc : t.idcList = u.idcList
  count : t.tmpCount = u.tmpCount

/-- Both routines fail, or both go on with the same counters. -/
def SameOutcome (x y : Option Table) : Prop :=
  (x = none ∧ y = none) ∨ ∃ t u, x = some t ∧ y = some u ∧ SameCounters t u

theorem insertPre_counters {t u : Table} (h : SameCounters t u) (ind : Nat) (x y : Item) :
    SameOutcome (insertPre t ind x) (insertPre u ind y) := by
  unfold insertPre
  dsimp only
  rw [h.idc]
  split_ifs
  · exact Or.inl ⟨rfl, rfl⟩
  · exact Or.inr ⟨_, _, rfl, rfl, rfl, h.count⟩

theorem insertCur16_counters {maxnumBucket maxsizeBucket : Nat} {t u : Table} (h : SameCounters t u) (ind : Nat)
    (x y : Item) : SameOutcome (insertCur16 maxnumBucket maxsizeBucket t ind x)
      (insertCur16 maxnumBucket maxsizeBucket u ind y) := by
  unfold insertCur16 insertCur
  dsimp only
  rw [h.idc, h.count]
  split_ifs
  · exact Or.inl ⟨rfl, rfl⟩
  · exact Or.inr ⟨_, _, rfl, rfl, by simp only [wrapCounters], by simp only [wrapCounters]⟩
  · exact Or.inl ⟨rfl, rfl⟩
  · exact Or.inr ⟨_, _, rfl, rfl, by simp only [wrapCounters], by simp only [wrapCounters]⟩
  · exact Or.inr ⟨_, _, rfl, rfl, by simp only [wrapCounters], by simp only [wrapCounters]⟩

/-- A loop whose turns fail or go on alike does so as a whole, whatever the items are. -/
theorem foldlM_sameOutcome {ins : Table → Nat → Item → Option Table}
    (hins : ∀ t u, SameCounters t u → ∀ ind x y, SameOutcome (ins t ind x) (ins u ind y)) {ps qs : List (Nat × Item)}
    (hfst : ps.map Prod.fst = qs.map Prod.fst) {t u : Table} (h : SameCounters t u) :
    SameOutcome (ps.foldlM (fun t p => ins t p.1 p.2) t) (qs.foldlM (fun t p => ins t p.1 p.2) u) := by
  induction ps generalizing qs t u with
  | nil =>
    obtain rfl : qs = [] := List.map_eq_nil_iff.mp hfst.symm
    exact Or.inr ⟨t, u, rfl, rfl, h⟩
  | cons p ps ih =>
    obtain ⟨q, qs, rfl⟩ : ∃ q qs', qs = q :: qs' := by
      cases qs with
      | nil => exact absurd hfst (by simp)
      | cons q qs => exact ⟨q, qs, rfl⟩
    rw [List.map_cons, List.map_cons, List.cons.injEq] at hfst
    rw [List.foldlM_cons, List.foldlM_cons, hfst.1]
    rcases hins t u h q.1 p.2 q.2 with ⟨h1, h2⟩ | ⟨t₁, u₁, h1, h2, hsame⟩
    · rw [h1, h2]
      exact Or.inl ⟨rfl, rfl⟩
    · rw [h1, h2]
      exact ih hfst.2 hsame

/-! ## The buckets of the flows -/

def SameFlows (n : Nat) (list list' : Nat → Item) : Prop := ∀ i < n, (list i).flowID = (list' i).flowID

/-- The shuffle and the hash function do not look at the sizes. -/
theorem targets_fst_congr (hash : U32 → U32) (numBucket : Nat) (rand' : Nat → Int) {num range : Nat} {rand : Nat → Int}
    {list list' : Nat → Item} (h : SameFlows num list list') :
    (targets hash numBucket rand' (shufflePairs num range rand list)).map Prod.fst =
      (targets hash numBucket rand' (shufflePairs num range rand list')).map Prod.fst := by
  -- a pair without the size of its item
  let flow : ShufflePair → ShufflePair := fun p => ⟨p.index, ⟨p.elem.flowID, 0⟩⟩
  have hsort : ∀ l : List ShufflePair, (sortPairs num l).map flow = sortPairs num (l.map flow) := by
    intro l
    unfold sortPairs
    split_ifs
    · exact OddEvenMergeSorter.sort_map flow greater_SP greater_SP (fun _ _ => rfl) l num
    · exact BitonicSorter.sort_map flow greater_SP greater_SP (fun _ _ => rfl) l num
  have hpairs : (shufflePairs num range rand list).map flow = (shufflePairs num range rand list').map flow := by
    unfold shufflePairs
    rw [hsort, hsort, List.map_map, List.map_map]
    congr 1
    refine List.map_congr_left fun i hi => ?_
    simp only [Function.comp_apply, flow, h i (List.mem_range.mp hi)]
  have hbuckets : ∀ pairs : List ShufflePair, (targets hash numBucket rand' pairs).map Prod.fst =
      (pairs.map flow).zipIdx.map fun p => bucketOf hash numBucket (rand' p.2) p.1.elem.flowID := by
    intro pairs
    rw [targets, List.map_map, List.zipIdx_map, List.map_map]
    rfl
  rw [hbuckets, hbuckets, hpairs]

theorem length_group_eq_count (ps : List (Nat × Item)) (b : Nat) : (group ps b).length = (ps.map Prod.fst).count b := by
  rw [group, List.length_map, ← List.countP_eq_length_filter, List.count, List.countP_map]
  rfl

section Flows
variable {hash : U32 → U32} {rand : Nat → Int} {list list' : Nat → Item} {numHeavy numBucket : Nat}

theorem prevTargets_fst_congr (h : SameFlows (2 * numHeavy) list list') :
    (prevTargets hash rand list numHeavy numBucket).map Prod.fst =
      (prevTargets hash rand list' numHeavy numBucket).map Prod.fst :=
  targets_fst_congr hash numBucket _ fun i hi => h (numHeavy + i) (by omega)

theorem curTargets_fst_congr (h : SameFlows (2 * numHeavy) list list') :
    (curTargets hash rand list numHeavy numBucket).map Prod.fst =
      (curTargets hash rand list' numHeavy numBucket).map Prod.fst :=
  targets_fst_congr hash numBucket _ fun i hi => h i (by omega)

/-- The failure exits depend on the flows only. -/
theorem deltaInput16_isSome_congr (h : SameFlows (2 * numHeavy) list list') (mem mem' : Tables)
    (maxnumBucket maxsizeBucket : Nat) :
    (deltaInput16 hash rand mem list numHeavy numBucket maxnumBucket maxsizeBucket).isSome =
      (deltaInput16 hash rand mem' list' numHeavy numBucket maxnumBucket maxsizeBucket).isSome := by
  unfold deltaInput16
  have hstart : SameCounters (startTable mem) (startTable mem') := ⟨rfl, rfl⟩
  have hprev := @prevTargets_fst_congr hash rand list list' numHeavy numBucket h
  have hcur := @curTargets_fst_congr hash rand list list' numHeavy numBucket h
  rcases foldlM_sameOutcome (fun t u htu => insertPre_counters htu) hprev hstart with ⟨h1, h2⟩ | ⟨t, u, h1, h2, htu⟩
  · rw [h1, h2]
    rfl
  have hmiddle : SameCounters (startCur t) (startCur u) := ⟨by simp only [startCur, htu.idc], htu.count⟩
  rcases foldlM_sameOutcome (fun t u htu => @insertCur16_counters maxnumBucket maxsizeBucket t u htu) hcur hmiddle with
    ⟨h3, h4⟩ | ⟨t', u', h3, h4, htu'⟩
  · simp only [h1, h2, Option.bind_eq_bind, Option.bind_some, h3, h4]
  · simp only [h1, h2, Option.bind_eq_bind, Option.bind_some, h3, h4, htu'.idc]
    split_ifs
    · rfl
    · rfl

end Flows

/-! ## The loads -/

section Loads
variable {maxnumBucket maxsizeBucket : Nat}

theorem insertCur16_some {t t' : Table} {ind : Nat} {tmp : Item}
    (h : insertCur16 maxnumBucket maxsizeBucket t ind tmp = some t') :
    ∃ t₁, insertCur maxnumBucket maxsizeBucket t ind tmp = some t₁ ∧ wrapCounters t₁ = t' :=
  Option.map_eq_some_iff.mp h

theorem foldlM_insertCur16_ind2 {ps : List (Nat × Item)} {t t' : Table} (hlt : ∀ b, (t.idcList b).ind2 < 65536)
    (h : ps.foldlM (fun t p => insertCur16 maxnumBucket maxsizeBucket t p.1 p.2) t = some t') (b : Nat) :
    (t'.idcList b).ind2 = ((t.idcList b).ind2 + (group ps b).length) % 65536 := by
  have hloop := foldlM_rest (P := fun rest u => (u.idcList b).ind2 < 65536 ∧
    ((u.idcList b).ind2 + (group rest b).length) % 65536 = ((t.idcList b).ind2 + (group ps b).length) % 65536) ?_ h
    ⟨hlt b, rfl⟩
  · obtain ⟨hend, hmod⟩ := hloop
    rwa [group_nil, List.length_nil, Nat.add_zero, Nat.mod_eq_of_lt hend] at hmod
  · rintro p - rest u u₁ h1 ⟨-, hmod⟩
    obtain ⟨u₂, hins, rfl⟩ := insertCur16_some h1
    have hwrap : ((wrapCounters u₂).idcList b).ind2 = (u₂.idcList b).ind2 % 65536 := rfl
    rw [hwrap, Nat.mod_add_mod, insertCur_total hins, hmod]
    exact ⟨Nat.mod_lt _ (by decide), rfl⟩

variable {hash : U32 → U32} {rand : Nat → Int} {mem : Tables} {list : Nat → Item} {numHeavy numBucket : Nat}

/-- A run without a failure exit, loop by loop. -/
theorem deltaInput16_some {t : Table}
    (h : deltaInput16 hash rand mem list numHeavy numBucket maxnumBucket maxsizeBucket = some t) :
    ∃ t₁, (prevTargets hash rand list numHeavy numBucket).foldlM (fun t p => insertPre t p.1 p.2) (startTable mem) =
        some t₁ ∧
      (curTargets hash rand list numHeavy numBucket).foldlM
        (fun t p => insertCur16 maxnumBucket maxsizeBucket t p.1 p.2) (startCur t₁) = some t ∧
      ((List.range numBucket).map fun i => (t.idcList i).ind2).sum = 2 * numHeavy := by
  unfold deltaInput16 at h
  rw [Option.bind_eq_bind, Option.bind_eq_some_iff] at h
  obtain ⟨t₁, h1, h⟩ := h
  rw [Option.bind_eq_some_iff] at h
  obtain ⟨t₂, h2, h⟩ := h
  dsimp only at h
  split_ifs at h with hsum
  rw [Option.some.injEq] at h
  subst h
  exact ⟨t₁, h1, h2, not_not.mp hsum⟩

/-- Without a failure exit no counter has come round. -/
theorem deltaInput16_loads (hb : 0 < numBucket) {t : Table}
    (h : deltaInput16 hash rand mem list numHeavy numBucket maxnumBucket maxsizeBucket = some t) (b : Nat) :
    (t.idcList b).ind2 = prevLoad hash rand list numHeavy numBucket b + curLoad hash rand list numHeavy numBucket b := by
  obtain ⟨t₁, h1, h2, hsum⟩ := deltaInput16_some h
  obtain ⟨-, -, hind2, hle, -⟩ := prevLoop_spec hash rand list numHeavy h1
  have hind : ∀ c, (t.idcList c).ind2 = (prevLoad hash rand list numHeavy numBucket c +
      curLoad hash rand list numHeavy numBucket c) % 65536 := by
    intro c
    rw [foldlM_insertCur16_ind2 (fun c => ?_) h2, hind2]
    · rfl
    · rw [hind2]
      exact (hle c).trans_lt (by decide)
  by_cases hlt : b < numBucket
  · have htotal : ∑ c ∈ Finset.range numBucket, (t.idcList c).ind2 = ∑ c ∈ Finset.range numBucket,
        (prevLoad hash rand list numHeavy numBucket c + curLoad hash rand list numHeavy numBucket c) :=
      hsum.trans (sum_loads hash rand list numHeavy hb).symm
    have hpoint := (Finset.sum_eq_sum_iff_of_le fun c _ => (hind c).trans_le (Nat.mod_le _ _)).mp htotal
    exact hpoint b (Finset.mem_range.mpr hlt)
  · have hp := group_of_forall_lt (prevTargets_lt hash rand list numHeavy hb) (not_lt.mp hlt)
    have hc := group_of_forall_lt (curTargets_lt hash rand list numHeavy hb) (not_lt.mp hlt)
    rw [hind, prevLoad, curLoad, hp, hc]
    rfl

def overflowing (hash : U32 → U32) (rand : Nat → Int) (list : Nat → Item) (numHeavy numBucket : Nat) : Finset Nat :=
  (Finset.range numBucket).filter fun b =>
    BT_BUCKET_SIZE < prevLoad hash rand list numHeavy numBucket b + curLoad hash rand list numHeavy numBucket b

theorem overflowing_congr {list' : Nat → Item} (h : SameFlows (2 * numHeavy) list list') :
    overflowing hash rand list numHeavy numBucket = overflowing hash rand list' numHeavy numBucket := by
  unfold overflowing prevLoad curLoad
  simp only [length_group_eq_count, prevTargets_fst_congr h, curTargets_fst_congr h]

end Loads

/-! ## What the buckets hold -/

/-- The buckets `ODelta` gets are both lists, and the first part of each is of the previous one. -/
structure Complete (maxsizeBucket numBucket : Nat) (prev cur : List Item) (t : Table) : Prop where
  all : ((List.range numBucket).flatMap (t.content maxsizeBucket)).Perm (prev ++ cur)
  first : ((List.range numBucket).flatMap fun b => (t.content maxsizeBucket b).take (t.idcList b).ind1).Perm prev

theorem mem_content_moved {maxsizeBucket : Nat} {t : Table} {b k : Nat} (h : BT_BUCKET_SIZE < (t.idcList b).ind2)
    (hk : k < (t.idcList b).ind2) : t.tmpBucketTable (t.loca b * maxsizeBucket + k) ∈ t.content maxsizeBucket b := by
  rw [content_moved h]
  exact List.mem_map_of_mem (List.mem_range.mpr hk)

/-- Two buckets with one row are not two parts of lists without doubles. -/
theorem not_complete_of_loca_eq {maxsizeBucket numBucket : Nat} {prev cur : List Item} {t : Table}
    (hnodup : (prev ++ cur).Nodup) {i j : Nat} (hij : i ≠ j) (hi : i < numBucket) (hj : j < numBucket)
    (hgti : BT_BUCKET_SIZE < (t.idcList i).ind2) (hgtj : BT_BUCKET_SIZE < (t.idcList j).ind2) (heq : t.loca i = t.loca j) :
    ¬Complete maxsizeBucket numBucket prev cur t := by
  intro h
  have hflat := (h.all.nodup_iff).mpr hnodup
  rw [List.nodup_flatMap] at hflat
  have hsymm : Std.Symm (Function.onFun List.Disjoint (t.content maxsizeBucket)) := ⟨fun _ _ hxy => hxy.symm⟩
  have hdisjoint := hflat.2.forall (List.mem_range.mpr hi) (List.mem_range.mpr hj) hij
  apply hdisjoint (mem_content_moved hgti (Nat.zero_lt_of_lt hgti))
  rw [heq]
  exact mem_content_moved hgtj (Nat.zero_lt_of_lt hgtj)

section Overflow
variable {maxnumBucket maxsizeBucket : Nat} {hash : U32 → U32} {rand : Nat → Int} {mem : Tables} {list : Nat → Item}
  {numHeavy numBucket : Nat}

theorem moved_of_overflowing (hb : 0 < numBucket) {t : Table}
    (h : deltaInput16 hash rand mem list numHeavy numBucket maxnumBucket maxsizeBucket = some t) {b : Nat}
    (hmem : b ∈ overflowing hash rand list numHeavy numBucket) : b < numBucket ∧ BT_BUCKET_SIZE < (t.idcList b).ind2 := by
  obtain ⟨hlt, hgt⟩ := Finset.mem_filter.mp hmem
  rw [deltaInput16_loads hb h]
  exact ⟨Finset.mem_range.mp hlt, hgt⟩

/-- **More than 256 moved buckets** share rows. -/
theorem not_complete_of_many (hb : 0 < numBucket) {t : Table}
    (h : deltaInput16 hash rand mem list numHeavy numBucket maxnumBucket maxsizeBucket = some t)
    (hnodup : (prevList list numHeavy ++ curList list numHeavy).Nodup)
    (hcard : 256 < (overflowing hash rand list numHeavy numBucket).card) :
    ¬Complete maxsizeBucket numBucket (prevList list numHeavy) (curList list numHeavy) t := by
  have hmaps : ∀ b ∈ overflowing hash rand list numHeavy numBucket, t.loca b ∈ Finset.range 256 :=
    fun b _ => Finset.mem_range.mpr (Nat.mod_lt _ (by decide))
  obtain ⟨i, hi, j, hj, hij, heq⟩ := Finset.exists_ne_map_eq_of_card_lt_of_maps_to
    (by rwa [Finset.card_range]) hmaps
  obtain ⟨hi, hgti⟩ := moved_of_overflowing hb h hi
  obtain ⟨hj, hgtj⟩ := moved_of_overflowing hb h hj
  exact not_complete_of_loca_eq hnodup hij hi hj hgti hgtj heq

end Overflow

/-! ## At most 256 moved buckets -/

section Few
variable {maxnumBucket maxsizeBucket : Nat}

theorem wrapCounters_eq {t : Table} (hind1 : ∀ b, (t.idcList b).ind1 < 65536) (hind2 : ∀ b, (t.idcList b).ind2 < 65536)
    (hcount : t.tmpCount < 65536) : wrapCounters t = t := by
  have hidc : (fun i => (⟨(t.idcList i).ind1 % 65536, (t.idcList i).ind2 % 65536⟩ : Indicator)) = t.idcList := by
    funext i
    rw [Nat.mod_eq_of_lt (hind1 i), Nat.mod_eq_of_lt (hind2 i)]
  unfold wrapCounters
  rw [hidc, Nat.mod_eq_of_lt hcount]

/-- **The loop over the current flows** with counters that do not come round. -/
theorem foldlM_insertCur16_eq {n : Nat} {ps : List (Nat × Item)} (hps : ∀ p ∈ ps, p.1 < n) {t : Table}
    (hind1 : ∀ b, (t.idcList b).ind1 < 65536) (hind2 : ∀ b, (t.idcList b).ind2 + (group ps b).length < 65536)
    (hcount : t.tmpCount + (moving n t ps).card < 65536) :
    ps.foldlM (fun t p => insertCur16 maxnumBucket maxsizeBucket t p.1 p.2) t =
      ps.foldlM (fun t p => insertCur maxnumBucket maxsizeBucket t p.1 p.2) t := by
  induction ps generalizing t with
  | nil => rfl
  | cons p ps ih =>
    have hp := hps p List.mem_cons_self
    rw [List.foldlM_cons, List.foldlM_cons]
    cases h : insertCur maxnumBucket maxsizeBucket t p.1 p.2 with
    | none =>
      have h16 : insertCur16 maxnumBucket maxsizeBucket t p.1 p.2 = none := by rw [insertCur16, h]; rfl
      rw [h16]
      rfl
    | some t₁ =>
      have hmoving := insertCur_moving hp h ps
      have htotal := insertCur_total h ps
      have hind1' : ∀ b, (t₁.idcList b).ind1 < 65536 := by
        intro b
        rw [insertCur_ind1 h]
        exact hind1 b
      have hwrap : wrapCounters t₁ = t₁ := by
        refine wrapCounters_eq hind1' (fun b => ?_) (by omega)
        have hb := hind2 b
        rw [← htotal] at hb
        omega
      have h16 : insertCur16 maxnumBucket maxsizeBucket t p.1 p.2 = some t₁ := by
        rw [insertCur16, h, Option.map_some, hwrap]
      rw [h16]
      refine ih (fun q hq => hps q (List.mem_cons_of_mem p hq)) hind1' (fun b => ?_) (by omega)
      rw [htotal]
      exact hind2 b

/-- Inside the loop: the rows are apart, and `num` of them will be in use at its end. -/
structure Running (maxsizeBucket n num : Nat) (rest : List (Nat × Item)) (t : Table) : Prop where
  rows : RowsAt maxsizeBucket t
  count : t.tmpCount + (moving n t rest).card = num

/-- A bucket that is about to move takes one of the rows that are left. -/
theorem Running.row_lt {n num : Nat} {p : Nat × Item} {rest : List (Nat × Item)} {t : Table}
    (h : Running maxsizeBucket n num (p :: rest) t) (hp : p.1 < n) (hfull : (t.idcList p.1).ind2 = BT_BUCKET_SIZE) :
    t.tmpCount < num := by
  have hpos := Finset.card_pos.mpr ⟨_, mem_moving_of_full hp hfull rest⟩
  have hcount := h.count
  omega

theorem Running.step (hmax : BT_BUCKET_SIZE < maxsizeBucket) {n num : Nat} (hfew : num ≤ 256) {p : Nat × Item}
    (hp : p.1 < n) {rest : List (Nat × Item)} {t t₁ : Table} (h : Running maxsizeBucket n num (p :: rest) t)
    (hins : insertCur maxnumBucket maxsizeBucket t p.1 p.2 = some t₁) : Running maxsizeBucket n num rest t₁ := by
  obtain ⟨hrows, -⟩ := insertCur_rows hmax h.rows (fun hfull => (h.row_lt hp hfull).trans_le hfew) hins
  exact ⟨hrows, (insertCur_moving hp hins rest).trans h.count⟩

section Run
variable {n num : Nat} {ps : List (Nat × Item)} {t t' : Table} (hmax : BT_BUCKET_SIZE < maxsizeBucket) (hfew : num ≤ 256)
  (hps : ∀ p ∈ ps, p.1 < n)
  (h : ps.foldlM (fun t p => insertCur maxnumBucket maxsizeBucket t p.1 p.2) t = some t')
  (hstart : Running maxsizeBucket n num ps t)

include hmax hfew hps h hstart

/-- **The loop keeps the rows apart** if at most 256 buckets move. -/
theorem foldlM_insertCur_rows :
    RowsAt maxsizeBucket t' ∧ t'.tmpCount = num ∧ ∀ b, (t'.idcList b).ind1 = (t.idcList b).ind1 := by
  have hloop := foldlM_rest (P := fun rest u => Running maxsizeBucket n num rest u ∧
    ∀ b, (u.idcList b).ind1 = (t.idcList b).ind1) ?_ h ⟨hstart, fun _ => rfl⟩
  · obtain ⟨hend, hind⟩ := hloop
    have hcount := hend.count
    rw [moving_nil, Finset.card_empty, Nat.add_zero] at hcount
    exact ⟨hend.rows, hcount, hind⟩
  · rintro p hp rest u u₁ h1 ⟨hrun, hind⟩
    exact ⟨hrun.step hmax hfew (hps p hp) h1, fun b => (insertCur_ind1 h1 b).trans (hind b)⟩

/-- **The loop appends** if the rows have 32 places, or one row is all that is used. -/
theorem foldlM_insertCur_content (hstride : maxsizeBucket = 32 ∨ num ≤ 1) (b : Nat) :
    t'.content maxsizeBucket b = t.content maxsizeBucket b ++ group ps b := by
  have hloop := foldlM_rest (P := fun rest u => Running maxsizeBucket n num rest u ∧
    u.content maxsizeBucket b ++ group rest b = t.content maxsizeBucket b ++ group ps b) ?_ h ⟨hstart, rfl⟩
  · obtain ⟨-, hcontent⟩ := hloop
    rwa [group_nil, List.append_nil] at hcontent
  rintro p hp rest u u₁ h1 ⟨hrun, hcontent⟩
  refine ⟨hrun.step hmax hfew (hps p hp) h1, ?_⟩
  have hsame : (u.idcList p.1).ind2 = BT_BUCKET_SIZE → u.tmpCount * 32 = u.tmpCount * maxsizeBucket := by
    intro hfull
    rcases hstride with h32 | hone
    · rw [h32]
    · have hzero := (hrun.row_lt (hps p hp) hfull).trans_le hone
      rw [Nat.lt_one_iff.mp hzero, Nat.zero_mul, Nat.zero_mul]
  obtain ⟨-, happend⟩ := insertCur_rows hmax hrun.rows (fun hfull => (hrun.row_lt (hps p hp) hfull).trans_le hfew) h1
  rw [happend hsame, ← hcontent, group_cons]
  by_cases hb : p.1 = b
  · rw [if_pos hb, hb, Function.update_self, List.append_assoc, List.singleton_append]
  · rw [if_neg hb, Function.update_of_ne (Ne.symm hb)]

end Run

/-- A place that none of the first `num` rows is copied to or appended at. -/
structure Unwritten (maxsizeBucket num c : Nat) : Prop where
  copied : ∀ k < num, ¬(k * 32 ≤ c ∧ c < k * 32 + BT_BUCKET_SIZE)
  appended : ∀ k < num, ∀ j, BT_BUCKET_SIZE ≤ j → j < maxsizeBucket → c ≠ k * maxsizeBucket + j

/-- An insertion leaves such a place alone. -/
theorem insertCur_unwritten (hmax : BT_BUCKET_SIZE < maxsizeBucket) {n num c : Nat} (hc : Unwritten maxsizeBucket num c)
    {p : Nat × Item} (hp : p.1 < n) {rest : List (Nat × Item)} {t t₁ : Table}
    (h : Running maxsizeBucket n num (p :: rest) t) (hins : insertCur maxnumBucket maxsizeBucket t p.1 p.2 = some t₁) :
    t₁.tmpBucketTable c = t.tmpBucketTable c := by
  rcases insertCur_cases hins with ⟨-, rfl⟩ | ⟨hgt, hlt, rfl⟩ | ⟨hfull, -, rfl⟩
  · rfl
  · have hrow : t.loca p.1 < num := (h.rows.loca_lt p.1 hgt).trans_le (Nat.le.intro h.count)
    exact Function.update_of_ne (hc.appended _ hrow _ hgt.le hlt) _ _
  · have hrow := h.row_lt hp hfull
    refine (Function.update_of_ne ?_ _ _).trans (if_neg (hc.copied _ hrow))
    rw [hfull]
    exact hc.appended _ hrow _ le_rfl hmax

theorem foldlM_insertCur_unwritten (hmax : BT_BUCKET_SIZE < maxsizeBucket) {n num c : Nat} (hfew : num ≤ 256)
    (hc : Unwritten maxsizeBucket num c) {ps : List (Nat × Item)} (hps : ∀ p ∈ ps, p.1 < n) {t t' : Table}
    (h : ps.foldlM (fun t p => insertCur maxnumBucket maxsizeBucket t p.1 p.2) t = some t')
    (hstart : Running maxsizeBucket n num ps t) : t'.tmpBucketTable c = t.tmpBucketTable c := by
  have hloop := foldlM_rest (P := fun rest u => Running maxsizeBucket n num rest u ∧
    u.tmpBucketTable c = t.tmpBucketTable c) ?_ h ⟨hstart, rfl⟩
  · obtain ⟨-, hkept⟩ := hloop
    exact hkept
  · rintro p hp rest u u₁ h1 ⟨hrun, hkept⟩
    exact ⟨hrun.step hmax hfew (hps p hp) h1, (insertCur_unwritten hmax hc (hps p hp) hrun h1).trans hkept⟩

/-- With rows of another length there are such places in a row that is in use. -/
theorem exists_unwritten (hmax : BT_BUCKET_SIZE < maxsizeBucket) (hne : maxsizeBucket ≠ 32) {num : Nat} (hnum : 2 ≤ num) :
    ∃ r < num, ∃ j < BT_BUCKET_SIZE, Unwritten maxsizeBucket num (r * maxsizeBucket + j) := by
  have happended : ∀ r, ∀ i < BT_BUCKET_SIZE, ∀ k < num, ∀ j, BT_BUCKET_SIZE ≤ j → j < maxsizeBucket →
      r * maxsizeBucket + i ≠ k * maxsizeBucket + j := by
    intro r i hi k _ j hj hjm
    by_cases hk : r = k
    · rw [hk]
      omega
    · exact row_ne hk (hi.trans hmax) hjm
  unfold BT_BUCKET_SIZE at hmax happended ⊢
  rcases Nat.lt_or_gt_of_ne hne with hlt | hgt
  · refine ⟨1, hnum, 0, by decide, fun k _ => ?_, happended 1 0 (by decide)⟩
    unfold BT_BUCKET_SIZE
    omega
  · have hmul : (num - 1) * 33 ≤ (num - 1) * maxsizeBucket := Nat.mul_le_mul_left _ hgt
    refine ⟨num - 1, by omega, 15, by decide, fun k hk => ?_, happended (num - 1) 15 (by decide)⟩
    unfold BT_BUCKET_SIZE
    omega

end Few

/-! ## The whole table -/

section Whole
variable {maxnumBucket maxsizeBucket : Nat} {hash : U32 → U32} {rand : Nat → Int} {mem : Tables} {list : Nat → Item}
  {numHeavy numBucket : Nat}

theorem foldlM_insertPre_tmp {ps : List (Nat × Item)} {t t' : Table}
    (h : ps.foldlM (fun t p => insertPre t p.1 p.2) t = some t') : t'.tmpBucketTable = t.tmpBucketTable := by
  refine foldlM_rest (P := fun _ u => u.tmpBucketTable = t.tmpBucketTable) ?_ h rfl
  intro p _ rest u u₁ h1 hkept
  obtain ⟨-, rfl⟩ := insertPre_cases h1
  exact hkept

/-- The table when at most 256 buckets have moved. -/
structure Built (hash : U32 → U32) (rand : Nat → Int) (mem : Tables) (list : Nat → Item)
    (numHeavy numBucket maxsizeBucket : Nat) (t : Table) : Prop where
  rows : RowsAt maxsizeBucket t
  count : t.tmpCount = (overflowing hash rand list numHeavy numBucket).card
  ind1 : ∀ b, (t.idcList b).ind1 = prevLoad hash rand list numHeavy numBucket b
  content : maxsizeBucket = 32 ∨ (overflowing hash rand list numHeavy numBucket).card ≤ 1 →
    t.content maxsizeBucket = fun b => group (prevTargets hash rand list numHeavy numBucket) b ++
      group (curTargets hash rand list numHeavy numBucket) b
  kept : ∀ c, Unwritten maxsizeBucket (overflowing hash rand list numHeavy numBucket).card c →
    t.tmpBucketTable c = mem.tmpBucketTable c

theorem deltaInput16_built (hmax : BT_BUCKET_SIZE < maxsizeBucket) (hb : 0 < numBucket) {t : Table}
    (h : deltaInput16 hash rand mem list numHeavy numBucket maxnumBucket maxsizeBucket = some t)
    (hfew : (overflowing hash rand list numHeavy numBucket).card ≤ 256) :
    Built hash rand mem list numHeavy numBucket maxsizeBucket t := by
  obtain ⟨t₁, h1, h2, -⟩ := deltaInput16_some h
  obtain ⟨hpre, hind1, hind2, hle, hcount⟩ := prevLoop_spec hash rand list numHeavy h1
  have hcur := curTargets_lt hash rand list numHeavy hb
  have hinside : ∀ b, ((startCur t₁).idcList b).ind2 ≤ BT_BUCKET_SIZE := fun b => (hind2 b).trans_le (hle b)
  have hsmall : ∀ b, ((startCur t₁).idcList b).ind2 < 65536 := fun b => (hinside b).trans_lt (by decide)
  have hmoving : moving numBucket (startCur t₁) (curTargets hash rand list numHeavy numBucket) =
      overflowing hash rand list numHeavy numBucket := by
    rw [moving_of_le numBucket hinside]
    simp only [hind2]
    rfl
  have htotal : (startCur t₁).tmpCount + (moving numBucket (startCur t₁)
      (curTargets hash rand list numHeavy numBucket)).card = (overflowing hash rand list numHeavy numBucket).card := by
    rw [hcount, hmoving, Nat.zero_add]
  have hloads : ∀ b, ((startCur t₁).idcList b).ind2 +
      (group (curTargets hash rand list numHeavy numBucket) b).length < 65536 := by
    intro b
    have hend := foldlM_insertCur16_ind2 hsmall h2 b
    rw [deltaInput16_loads hb h b, hind2] at hend
    rw [hind2]
    exact (Nat.mod_eq_iff_lt (by decide)).mp hend.symm
  rw [foldlM_insertCur16_eq hcur (fun b => (hind1 b).trans_lt ((hle b).trans_lt (by decide))) hloads (by omega)] at h2
  have hrows : RowsAt maxsizeBucket (startCur t₁) :=
    ⟨fun b => (hind1 b).trans_le (hind2 b).ge, fun b => (hinside b).trans hmax.le,
      fun b hgt => absurd hgt (not_lt.mpr (hinside b)), fun b _ hgt => absurd hgt (not_lt.mpr (hinside b))⟩
  have hstart : Running maxsizeBucket numBucket (overflowing hash rand list numHeavy numBucket).card
      (curTargets hash rand list numHeavy numBucket) (startCur t₁) := ⟨hrows, htotal⟩
  obtain ⟨hrows, hend, hind⟩ := foldlM_insertCur_rows hmax hfew hcur h2 hstart
  refine ⟨hrows, hend, fun b => (hind b).trans (hind1 b), fun hstride => ?_, fun c hc => ?_⟩
  · funext b
    rw [foldlM_insertCur_content hmax hfew hcur h2 hstart hstride, content_inside (hinside b), ← hpre]
    rfl
  · rw [foldlM_insertCur_unwritten hmax hfew hc hcur h2 hstart]
    exact congrFun (foldlM_insertPre_tmp h1) c

theorem card_moving_le {n : Nat} (t : Table) {ps : List (Nat × Item)} (hps : ∀ p ∈ ps, p.1 < n) :
    (moving n t ps).card ≤ ps.length := by
  calc (moving n t ps).card = ∑ b ∈ moving n t ps, 1 := Finset.card_eq_sum_ones _
    _ ≤ ∑ b ∈ moving n t ps, (group ps b).length := by
      refine Finset.sum_le_sum fun b hb => ?_
      obtain ⟨-, hle, hgt⟩ := Finset.mem_filter.mp hb
      omega
    _ ≤ ∑ b ∈ Finset.range n, (group ps b).length := Finset.sum_le_sum_of_subset (Finset.filter_subset _ _)
    _ = ps.length := sum_group hps

theorem length_group_le (ps : List (Nat × Item)) (b : Nat) : (group ps b).length ≤ ps.length := by
  rw [group, List.length_map]
  exact List.length_filter_le _ _

/-- On short lists the table is the one of `OHeavyChange`. -/
theorem deltaInput16_eq_buildTable (hb : 0 < numBucket) (hH : numHeavy < 32768) :
    deltaInput16 hash rand mem list numHeavy numBucket maxnumBucket maxsizeBucket =
      buildTable hash rand mem list numHeavy numBucket maxnumBucket maxsizeBucket := by
  have hcur := curTargets_lt hash rand list numHeavy hb
  have hcurlen := length_curTargets hash rand list numHeavy numBucket
  have hbuild : buildTable hash rand mem list numHeavy numBucket maxnumBucket maxsizeBucket =
      ((prevTargets hash rand list numHeavy numBucket).foldlM (fun t p => insertPre t p.1 p.2) (startTable mem)).bind
        fun t => (curTargets hash rand list numHeavy numBucket).foldlM
          (fun t p => insertCur maxnumBucket maxsizeBucket t p.1 p.2) (startCur t) := rfl
  rw [hbuild]
  unfold deltaInput16
  rw [Option.bind_eq_bind]
  cases h1 : (prevTargets hash rand list numHeavy numBucket).foldlM (fun t p => insertPre t p.1 p.2) (startTable mem) with
  | none => rfl
  | some t₁ =>
    obtain ⟨-, hind1, hind2, hle, hcount⟩ := prevLoop_spec hash rand list numHeavy h1
    have hcard := card_moving_le (startCur t₁) hcur
    have hloads : ∀ b, ((startCur t₁).idcList b).ind2 +
        (group (curTargets hash rand list numHeavy numBucket) b).length < 65536 := by
      intro b
      have hgroup := length_group_le (curTargets hash rand list numHeavy numBucket) b
      have hb' := hle b
      rw [hind2]
      unfold BT_BUCKET_SIZE at hb'
      omega
    rw [Option.bind_some, Option.bind_some,
      foldlM_insertCur16_eq hcur (fun b => (hind1 b).trans_lt ((hle b).trans_lt (by decide))) hloads (by omega)]
    cases h2 : (curTargets hash rand list numHeavy numBucket).foldlM
        (fun t p => insertCur maxnumBucket maxsizeBucket t p.1 p.2) (startCur t₁) with
    | none => rfl
    | some t =>
      have hsum : ((List.range numBucket).map fun i => (t.idcList i).ind2).sum = 2 * numHeavy := by
        refine (Finset.sum_congr rfl fun b _ => ?_).trans (sum_loads hash rand list numHeavy hb)
        rw [foldlM_insertCur_ind2 h2, hind2]
        rfl
      rw [Option.bind_some]
      exact if_neg (not_not.mpr hsum)

/-- **The buckets are the two lists** if the rows are read where they are written. -/
theorem Built.complete (hb : 0 < numBucket) {t : Table}
    (h : Built hash rand mem list numHeavy numBucket maxsizeBucket t)
    (hstride : maxsizeBucket = 32 ∨ (overflowing hash rand list numHeavy numBucket).card ≤ 1) :
    Complete maxsizeBucket numBucket (prevList list numHeavy) (curList list numHeavy) t := by
  have hprev : ((List.range numBucket).flatMap (group (prevTargets hash rand list numHeavy numBucket))).Perm
      (prevList list numHeavy) := by
    apply (flatMap_group_perm (prevTargets_lt hash rand list numHeavy hb)).trans
    rw [prevTargets, targets_snd]
    exact shufflePairs_perm _ _ _ _
  have hcur : ((List.range numBucket).flatMap (group (curTargets hash rand list numHeavy numBucket))).Perm
      (curList list numHeavy) := by
    apply (flatMap_group_perm (curTargets_lt hash rand list numHeavy hb)).trans
    rw [curTargets, targets_snd]
    exact shufflePairs_perm _ _ _ _
  constructor
  · rw [h.content hstride]
    exact (List.flatMap_append_perm _ _ _).symm.trans (hprev.append hcur)
  · have hfirst : (fun b => (t.content maxsizeBucket b).take (t.idcList b).ind1) =
        group (prevTargets hash rand list numHeavy numBucket) := by
      funext b
      rw [h.content hstride, h.ind1]
      exact List.take_left
    rw [hfirst]
    exact hprev

/-- **Rows of another length** are read at places nothing was written to. -/
theorem Built.not_complete (hmax : BT_BUCKET_SIZE < maxsizeBucket) (hb : 0 < numBucket) {t : Table}
    (hrun : deltaInput16 hash rand mem list numHeavy numBucket maxnumBucket maxsizeBucket = some t)
    (h : Built hash rand mem list numHeavy numBucket maxsizeBucket t) (hne : maxsizeBucket ≠ 32)
    (hnum : 2 ≤ (overflowing hash rand list numHeavy numBucket).card) {z : Item} (hmem : ∀ c, mem.tmpBucketTable c = z)
    (hz : z ∉ prevList list numHeavy ++ curList list numHeavy) :
    ¬Complete maxsizeBucket numBucket (prevList list numHeavy) (curList list numHeavy) t := by
  intro hcomplete
  obtain ⟨r, hr, j, hj, hc⟩ := exists_unwritten hmax hne hnum
  have hmaps : Set.MapsTo t.loca (overflowing hash rand list numHeavy numBucket)
      (Finset.range (overflowing hash rand list numHeavy numBucket).card) := by
    intro b hmem'
    rw [Finset.coe_range, Set.mem_Iio, ← h.count]
    exact h.rows.loca_lt b (moved_of_overflowing hb hrun hmem').2
  have hinj : Set.InjOn t.loca (overflowing hash rand list numHeavy numBucket) := fun i hi j hj =>
    h.rows.loca_inj i j (moved_of_overflowing hb hrun hi).2 (moved_of_overflowing hb hrun hj).2
  obtain ⟨b, hbmem, hloca⟩ := Finset.surjOn_of_injOn_of_card_le t.loca hmaps hinj (Finset.card_range _).le
    (Finset.mem_coe.mpr (Finset.mem_range.mpr hr))
  obtain ⟨hlt, hgt⟩ := moved_of_overflowing hb hrun hbmem
  have hread := @mem_content_moved maxsizeBucket t b j hgt (hj.trans hgt)
  rw [hloca, h.kept _ hc, hmem] at hread
  exact hz (hcomplete.all.mem_iff.mp (List.mem_flatMap.mpr ⟨b, List.mem_range.mpr hlt, hread⟩))

/-- The same flows with the places of the entries as sizes. -/
def numbered (list : Nat → Item) (i : Nat) : Item := ⟨(list i).flowID, Fin.ofNat 4294967296 i⟩

theorem curList_append_prevList (list : Nat → Item) (numHeavy : Nat) :
    curList list numHeavy ++ prevList list numHeavy = (List.range (numHeavy + numHeavy)).map list := by
  rw [List.range_add, List.map_append, List.map_map]
  rfl

theorem size_lt_of_mem_numbered (hH : numHeavy < 2147483648) {x : Item}
    (hx : x ∈ prevList (numbered list) numHeavy ++ curList (numbered list) numHeavy) : x.size.val < 4294967295 := by
  rw [List.perm_append_comm.mem_iff, curList_append_prevList] at hx
  obtain ⟨i, hi, rfl⟩ := List.mem_map.mp hx
  rw [List.mem_range] at hi
  exact (Nat.mod_le i 4294967296).trans_lt (by omega)

theorem numbered_nodup (list : Nat → Item) (hH : numHeavy < 2147483648) :
    (prevList (numbered list) numHeavy ++ curList (numbered list) numHeavy).Nodup := by
  rw [List.nodup_append_comm, curList_append_prevList]
  refine List.Nodup.map_on (fun i hi j hj he => ?_) List.nodup_range
  rw [List.mem_range] at hi hj
  have hval : i % 4294967296 = j % 4294967296 := congrArg (fun x : Item => x.size.val) he
  omega

/-- **What `ODelta` gets.** Whatever the sizes are and whatever lies in the memory for the tables, the buckets are the two
lists: exactly if at most one bucket moves, or the rows have 32 places and at most 256 buckets move. -/
theorem deltaInput_complete_iff (hmax : BT_BUCKET_SIZE < maxsizeBucket) (hb : 0 < numBucket) (hsize : numBucket ≤ 16777216)
    (hH : numHeavy < 2147483648)
    (hok : (deltaInput hash rand mem list numHeavy numBucket maxnumBucket maxsizeBucket).isSome) :
    (∀ mem' list' t, SameFlows (2 * numHeavy) list list' →
      deltaInput hash rand mem' list' numHeavy numBucket maxnumBucket maxsizeBucket = some t →
        Complete maxsizeBucket numBucket (prevList list' numHeavy) (curList list' numHeavy) t) ↔
      (overflowing hash rand list numHeavy numBucket).card ≤ 1 ∨
        maxsizeBucket = 32 ∧ (overflowing hash rand list numHeavy numBucket).card ≤ 256 := by
  have heq := fun mem list => deltaInput_eq hash rand mem list numHeavy maxnumBucket maxsizeBucket hb hsize
  simp only [heq] at hok ⊢
  constructor
  · intro hall
    by_contra hnot
    push Not at hnot
    obtain ⟨hmany, hstride⟩ := hnot
    let z : Item := ⟨0, 4294967295⟩
    have hsame : SameFlows (2 * numHeavy) list (numbered list) := fun _ _ => rfl
    have hok' := hok
    rw [deltaInput16_isSome_congr hsame mem ⟨fun _ => z, fun _ => z⟩, Option.isSome_iff_exists] at hok'
    obtain ⟨t, ht⟩ := hok'
    have hcomplete := hall _ _ t hsame ht
    have hcard := @overflowing_congr hash rand list numHeavy numBucket (numbered list) hsame
    rw [hcard] at hmany hstride
    by_cases hfew : (overflowing hash rand (numbered list) numHeavy numBucket).card ≤ 256
    · have hne : maxsizeBucket ≠ 32 := fun h32 => absurd hfew (not_le.mpr (hstride h32))
      have hz : z ∉ prevList (numbered list) numHeavy ++ curList (numbered list) numHeavy :=
        fun hz => absurd (size_lt_of_mem_numbered hH hz) (by decide)
      exact (deltaInput16_built hmax hb ht hfew).not_complete hmax hb ht hne hmany (fun _ => rfl) hz hcomplete
    · exact not_complete_of_many hb ht (numbered_nodup list hH) (not_le.mp hfew) hcomplete
  · intro hcond mem' list' t hsame ht
    rw [overflowing_congr hsame] at hcond
    have hfew : (overflowing hash rand list' numHeavy numBucket).card ≤ 256 := by omega
    exact (deltaInput16_built hmax hb ht hfew).complete hb (by tauto)

/-- Two buckets with 17 items each, and rows of 32 places. -/
theorem deltaInput_complete_iff_two :
    (∀ mem' list' t, SameFlows (2 * 17) (fun i => ⟨Fin.ofNat _ (i + 1), 1⟩) list' →
      deltaInput (fun f => f) (fun _ => 0) mem' list' 17 2 2 32 = some t →
        Complete 32 2 (prevList list' 17) (curList list' 17) t) ↔
      (overflowing (fun f => f) (fun _ => 0) (fun i => ⟨Fin.ofNat _ (i + 1), 1⟩) 17 2).card ≤ 1 ∨
        32 = 32 ∧ (overflowing (fun f => f) (fun _ => 0) (fun i => ⟨Fin.ofNat _ (i + 1), 1⟩) 17 2).card ≤ 256 :=
  @deltaInput_complete_iff 2 32 (fun f => f) (fun _ => 0) ⟨fun _ => ⟨0, 0⟩, fun _ => ⟨0, 0⟩⟩
    (fun i => ⟨Fin.ofNat _ (i + 1), 1⟩) 17 2 (by decide) (by decide) (by decide) (by decide) (by decide +kernel)

/-- The same with rows of 33 places: the sixteenth place of the second row is read, but not written. -/
theorem deltaInput_incomplete :
    ∃ t, deltaInput (fun f => f) (fun _ => 0) ⟨fun _ => ⟨0, 0⟩, fun _ => ⟨0, 0⟩⟩
        (fun i => ⟨Fin.ofNat _ (i + 1), 1⟩) 17 2 2 33 = some t ∧
      ¬Complete 33 2 (prevList (fun i => ⟨Fin.ofNat _ (i + 1), 1⟩) 17)
        (curList (fun i => ⟨Fin.ofNat _ (i + 1), 1⟩) 17) t := by
  have hrun : (deltaInput (fun f => f) (fun _ => 0) ⟨fun _ => ⟨0, 0⟩, fun _ => ⟨0, 0⟩⟩
      (fun i => ⟨Fin.ofNat _ (i + 1), 1⟩) 17 2 2 33).any
        (fun t => decide (⟨0, 0⟩ ∈ (List.range 2).flatMap (t.content 33))) = true := by decide +kernel
  obtain ⟨t, ht, hread⟩ := (Option.any_eq_true _ _).mp hrun
  refine ⟨t, ht, fun h => ?_⟩
  have hmem := h.all.mem_iff.mp (of_decide_eq_true hread)
  exact absurd hmem (by decide)

end Whole

end FOSketch.Heavy
