import FOSketch.Heavy.Change

/-!
# When `OHeavyChange` succeeds

The failure exits depend on the fill counters only: no bucket may get more than 16 previous flows or more than
`maxsizeBucket` flows in all, and at most `maxnumBucket` buckets may get more than 16 (`OHeavyChange_isSome_iff`). The last
check, that nothing was lost, never fails.
-/

namespace FOSketch.Heavy

open Loop Memory

/-! ## The previous flows -/

theorem length_group_cons (p : Nat × Item) (ps : List (Nat × Item)) (b : Nat) :
    (group (p :: ps) b).length = (group ps b).length + if b = p.1 then 1 else 0 := by
  unfold group
  by_cases hb : p.1 = b
  · simp [hb]
  · simp [hb, Ne.symm hb]

theorem insertPre_ind1 {t t' : Table} {ind : Nat} {tmp : Item} (h : insertPre t ind tmp = some t') (b : Nat) :
    (t'.idcList b).ind1 = (t.idcList b).ind1 + (if b = ind then 1 else 0) ∧ t'.tmpCount = t.tmpCount := by
  obtain ⟨-, rfl⟩ := insertPre_cases h
  refine ⟨?_, rfl⟩
  dsimp only
  by_cases hb : b = ind
  · subst hb
    rw [Function.update_self, if_pos rfl]
  · rw [Function.update_of_ne hb, if_neg hb, Nat.add_zero]

theorem foldlM_insertPre_ind1 {ps : List (Nat × Item)} {t t' : Table}
    (h : ps.foldlM (fun t p => insertPre t p.1 p.2) t = some t') :
    (∀ b, (t'.idcList b).ind1 = (t.idcList b).ind1 + (group ps b).length) ∧ t'.tmpCount = t.tmpCount := by
  have hrest := foldlM_rest (P := fun rest u => (∀ b, (u.idcList b).ind1 + (group rest b).length =
    (t.idcList b).ind1 + (group ps b).length) ∧ u.tmpCount = t.tmpCount) ?_ h ⟨fun _ => rfl, rfl⟩
  · exact hrest
  · rintro p - rest u u₁ h1 ⟨hind, htmp⟩
    refine ⟨fun b => ?_, (insertPre_ind1 h1 0).2.trans htmp⟩
    rw [(insertPre_ind1 h1 b).1, ← hind, length_group_cons]
    omega

/-- **The first loop** succeeds if no bucket overflows. -/
theorem foldlM_insertPre_isSome {n : Nat} {ps : List (Nat × Item)} (hps : ∀ p ∈ ps, p.1 < n) {t : Table}
    (hle : ∀ b, (t.idcList b).ind1 ≤ BT_BUCKET_SIZE) :
    (ps.foldlM (fun t p => insertPre t p.1 p.2) t).isSome ↔
      ∀ b < n, (t.idcList b).ind1 + (group ps b).length ≤ BT_BUCKET_SIZE := by
  induction ps generalizing t with
  | nil => exact iff_of_true rfl fun b _ => hle b
  | cons p ps ih =>
    have hp := hps p List.mem_cons_self
    rw [List.foldlM_cons, Option.bind_eq_bind]
    cases h1 : insertPre t p.1 p.2 with
    | none =>
      have hfull : BT_BUCKET_SIZE ≤ (t.idcList p.1).ind1 := by
        unfold insertPre at h1
        dsimp only at h1
        split_ifs at h1 with hfull
        exact hfull
      refine iff_of_false Bool.false_ne_true fun hall => ?_
      have hself := hall p.1 hp
      rw [length_group_cons, if_pos rfl] at hself
      omega
    | some t₁ =>
      have hind := fun b => (insertPre_ind1 h1 b).1
      obtain ⟨hfull, -⟩ := insertPre_cases h1
      have hle₁ : ∀ b, (t₁.idcList b).ind1 ≤ BT_BUCKET_SIZE := by
        intro b
        rw [hind]
        by_cases hb : b = p.1
        · rw [if_pos hb, hb]
          exact hfull
        · rw [if_neg hb]
          exact hle b
      rw [Option.bind_some, ih (fun q hq => hps q (List.mem_cons_of_mem p hq)) hle₁]
      refine forall₂_congr fun b _ => ?_
      rw [hind, length_group_cons, Nat.add_right_comm, Nat.add_assoc]

/-! ## The current flows -/

section Current
variable {maxnumBucket maxsizeBucket : Nat}

theorem insertCur_none_iff {t : Table} {ind : Nat} (tmp : Item) :
    insertCur maxnumBucket maxsizeBucket t ind tmp = none ↔
      (t.idcList ind).ind2 = BT_BUCKET_SIZE ∧ maxnumBucket ≤ t.tmpCount ∨
        BT_BUCKET_SIZE < (t.idcList ind).ind2 ∧ maxsizeBucket ≤ (t.idcList ind).ind2 := by
  unfold insertCur
  dsimp only
  split_ifs with h1 h2 h3 h4
  · exact iff_of_true rfl (Or.inl ⟨h1, h2⟩)
  · exact iff_of_false (by simp) (by omega)
  · exact iff_of_true rfl (Or.inr ⟨h3, h4⟩)
  · exact iff_of_false (by simp) (by omega)
  · exact iff_of_false (by simp) (by omega)

theorem insertCur_counters {t t' : Table} {ind : Nat} {tmp : Item}
    (h : insertCur maxnumBucket maxsizeBucket t ind tmp = some t') :
    (∀ b, (t'.idcList b).ind2 = (t.idcList b).ind2 + if b = ind then 1 else 0) ∧
      t'.tmpCount = t.tmpCount + if (t.idcList ind).ind2 = BT_BUCKET_SIZE then 1 else 0 := by
  obtain ⟨hother, -, hself⟩ := idcList_grown t t' (insertCur_idcList h)
  refine ⟨fun b => ?_, ?_⟩
  · by_cases hb : b = ind
    · rw [hb, hself, if_pos rfl]
    · rw [hother b hb, if_neg hb, Nat.add_zero]
  · rcases insertCur_cases h with ⟨hroom, rfl⟩ | ⟨hgt, -, rfl⟩ | ⟨hfull, -, rfl⟩
    · rw [if_neg hroom.ne]
      rfl
    · rw [if_neg hgt.ne']
      rfl
    · rw [if_pos hfull]

/-- The buckets that are not moved yet, but will be. -/
def moving (n : Nat) (t : Table) (ps : List (Nat × Item)) : Finset Nat :=
  (Finset.range n).filter fun b => (t.idcList b).ind2 ≤ BT_BUCKET_SIZE ∧
    BT_BUCKET_SIZE < (t.idcList b).ind2 + (group ps b).length

theorem moving_nil (n : Nat) (t : Table) : moving n t [] = ∅ := by
  unfold moving
  rw [Finset.filter_eq_empty_iff]
  intro b _
  rw [group_nil, List.length_nil, Nat.add_zero]
  omega

/-- As long as no bucket has moved, all that will overflow are to move. -/
theorem moving_of_le (n : Nat) {t : Table} (h : ∀ b, (t.idcList b).ind2 ≤ BT_BUCKET_SIZE) (ps : List (Nat × Item)) :
    moving n t ps = (Finset.range n).filter fun b => BT_BUCKET_SIZE < (t.idcList b).ind2 + (group ps b).length := by
  unfold moving
  exact Finset.filter_congr fun b _ => and_iff_right (h b)

/-- A bucket in which the seventeenth item is the next one is about to move. -/
theorem mem_moving_of_full {n : Nat} {t : Table} {p : Nat × Item} (hp : p.1 < n)
    (h : (t.idcList p.1).ind2 = BT_BUCKET_SIZE) (ps : List (Nat × Item)) : p.1 ∈ moving n t (p :: ps) := by
  unfold moving
  rw [Finset.mem_filter, Finset.mem_range, length_group_cons, if_pos rfl]
  exact ⟨hp, h.le, by omega⟩

/-- An insertion moves one item from the ones to come to the count of its bucket. -/
theorem insertCur_total {t t₁ : Table} {p : Nat × Item} (h : insertCur maxnumBucket maxsizeBucket t p.1 p.2 = some t₁)
    (ps : List (Nat × Item)) (b : Nat) :
    (t₁.idcList b).ind2 + (group ps b).length = (t.idcList b).ind2 + (group (p :: ps) b).length := by
  rw [(insertCur_counters h).1, length_group_cons]
  omega

theorem foldlM_insertCur_ind2 {ps : List (Nat × Item)} {t t' : Table}
    (h : ps.foldlM (fun t p => insertCur maxnumBucket maxsizeBucket t p.1 p.2) t = some t') (b : Nat) :
    (t'.idcList b).ind2 = (t.idcList b).ind2 + (group ps b).length := by
  refine foldlM_rest (P := fun rest u => (u.idcList b).ind2 + (group rest b).length =
    (t.idcList b).ind2 + (group ps b).length) ?_ h rfl
  intro p _ rest u u₁ h1 hind
  exact (insertCur_total h1 rest b).trans hind

/-- **One insertion** leaves the rows in use and the ones still needed together as they were: the bucket leaves the set
exactly if this is its seventeenth item. -/
theorem insertCur_moving {n : Nat} {t t₁ : Table} {p : Nat × Item} (hp : p.1 < n)
    (h : insertCur maxnumBucket maxsizeBucket t p.1 p.2 = some t₁) (ps : List (Nat × Item)) :
    t₁.tmpCount + (moving n t₁ ps).card = t.tmpCount + (moving n t (p :: ps)).card := by
  obtain ⟨hind, hcount⟩ := insertCur_counters h
  have hsum := insertCur_total h ps
  by_cases h2 : (t.idcList p.1).ind2 = BT_BUCKET_SIZE
  · have herase : moving n t₁ ps = (moving n t (p :: ps)).erase p.1 := by
      ext b
      unfold moving
      rw [Finset.mem_erase, Finset.mem_filter, Finset.mem_filter, hsum, hind]
      by_cases hb : b = p.1
      · subst hb
        rw [if_pos rfl, h2]
        omega
      · rw [if_neg hb, Nat.add_zero]
        tauto
    have hmem : p.1 ∈ moving n t (p :: ps) := mem_moving_of_full hp h2 ps
    have hpos := Finset.card_pos.mpr ⟨_, hmem⟩
    rw [herase, Finset.card_erase_of_mem hmem, hcount, if_pos h2]
    omega
  · have hsame : moving n t₁ ps = moving n t (p :: ps) := by
      ext b
      unfold moving
      rw [Finset.mem_filter, Finset.mem_filter, Finset.mem_range, hsum, hind]
      by_cases hb : b = p.1
      · subst hb
        rw [if_pos rfl]
        omega
      · rw [if_neg hb, Nat.add_zero]
    rw [hsame, hcount, if_neg h2, Nat.add_zero]

/-- **The second loop** succeeds if every bucket fits a row and the rows suffice. -/
theorem foldlM_insertCur_isSome (hmax : BT_BUCKET_SIZE < maxsizeBucket) {n : Nat} {ps : List (Nat × Item)}
    (hps : ∀ p ∈ ps, p.1 < n) {t : Table} (hle : ∀ b, (t.idcList b).ind2 ≤ maxsizeBucket)
    (htmp : t.tmpCount ≤ maxnumBucket) :
    (ps.foldlM (fun t p => insertCur maxnumBucket maxsizeBucket t p.1 p.2) t).isSome ↔
      (∀ b < n, (t.idcList b).ind2 + (group ps b).length ≤ maxsizeBucket) ∧
        t.tmpCount + (moving n t ps).card ≤ maxnumBucket := by
  induction ps generalizing t with
  | nil =>
    rw [moving_nil, Finset.card_empty]
    exact iff_of_true rfl ⟨fun b _ => hle b, htmp⟩
  | cons p ps ih =>
    have hp := hps p List.mem_cons_self
    rw [List.foldlM_cons, Option.bind_eq_bind]
    cases h1 : insertCur maxnumBucket maxsizeBucket t p.1 p.2 with
    | none =>
      apply iff_of_false Bool.false_ne_true
      rintro ⟨hall, hcard⟩
      rcases (insertCur_none_iff p.2).mp h1 with ⟨h2, h3⟩ | ⟨h2, h3⟩
      · have hpos := Finset.card_pos.mpr ⟨_, mem_moving_of_full hp h2 ps⟩
        omega
      · have hrow := hall p.1 hp
        rw [length_group_cons, if_pos rfl] at hrow
        omega
    | some t₁ =>
      obtain ⟨hind, hcount⟩ := insertCur_counters h1
      have hok : ¬ ((t.idcList p.1).ind2 = BT_BUCKET_SIZE ∧ maxnumBucket ≤ t.tmpCount ∨
          BT_BUCKET_SIZE < (t.idcList p.1).ind2 ∧ maxsizeBucket ≤ (t.idcList p.1).ind2) := by
        rw [← insertCur_none_iff p.2, h1]
        simp
      have hle₁ : ∀ b, (t₁.idcList b).ind2 ≤ maxsizeBucket := by
        intro b
        rw [hind]
        by_cases hb : b = p.1
        · rw [if_pos hb, hb]
          have := hle p.1
          omega
        · rw [if_neg hb]
          exact hle b
      have htmp₁ : t₁.tmpCount ≤ maxnumBucket := by
        rw [hcount]
        split_ifs <;> omega
      rw [Option.bind_some, ih (fun q hq => hps q (List.mem_cons_of_mem p hq)) hle₁ htmp₁, insertCur_moving hp h1 ps]
      refine and_congr_left fun _ => forall₂_congr fun b _ => ?_
      rw [insertCur_total h1 ps b]

end Current

/-! ## Both loops -/

/-- The loads of the buckets fit the table. -/
structure Fits (numBucket maxnumBucket maxsizeBucket : Nat) (prev cur : Nat → Nat) : Prop where
  prev_le : ∀ b < numBucket, prev b ≤ BT_BUCKET_SIZE
  le : ∀ b < numBucket, prev b + cur b ≤ maxsizeBucket
  moved : ((Finset.range numBucket).filter fun b => BT_BUCKET_SIZE < prev b + cur b).card ≤ maxnumBucket

section Both
variable (hash : U32 → U32) (rand : Nat → Int) (HeavyHitterList : Nat → Item) (numHeavy numBucket : Nat)

def prevTargets : List (Nat × Item) :=
  targets hash numBucket (fun i => rand (numHeavy + i))
    (shufflePairs numHeavy numBucket rand fun i => HeavyHitterList (numHeavy + i))

def curTargets : List (Nat × Item) :=
  targets hash numBucket (fun i => rand (3 * numHeavy + i))
    (shufflePairs numHeavy numBucket (fun i => rand (2 * numHeavy + i)) HeavyHitterList)

def prevLoad (b : Nat) : Nat := (group (prevTargets hash rand HeavyHitterList numHeavy numBucket) b).length

def curLoad (b : Nat) : Nat := (group (curTargets hash rand HeavyHitterList numHeavy numBucket) b).length

/-- The table before the first loop. -/
def startTable (mem : Tables) : Table := ⟨mem.BucketTable, mem.tmpBucketTable, fun _ => ⟨0, 0⟩, 0⟩

theorem length_targets (rand : Nat → Int) (pairs : List ShufflePair) :
    (targets hash numBucket rand pairs).length = pairs.length := by
  rw [targets, List.length_map, List.length_zipIdx]

theorem length_shufflePairs (range : Nat) (rand : Nat → Int) (list : Nat → Item) :
    (shufflePairs numHeavy range rand list).length = numHeavy := by
  have hlen := (shufflePairs_perm numHeavy range rand list).length_eq
  rwa [List.length_map, List.length_map, List.length_range] at hlen

theorem sum_group {n : Nat} {ps : List (Nat × Item)} (hps : ∀ p ∈ ps, p.1 < n) :
    ∑ b ∈ Finset.range n, (group ps b).length = ps.length := by
  induction ps with
  | nil => exact Finset.sum_eq_zero fun b _ => rfl
  | cons p ps ih =>
    simp only [length_group_cons]
    rw [Finset.sum_add_distrib, ih fun q hq => hps q (List.mem_cons_of_mem p hq), Finset.sum_ite_eq',
      if_pos (Finset.mem_range.mpr (hps p List.mem_cons_self)), List.length_cons]

theorem length_prevTargets : (prevTargets hash rand HeavyHitterList numHeavy numBucket).length = numHeavy := by
  rw [prevTargets, length_targets, length_shufflePairs]

theorem length_curTargets : (curTargets hash rand HeavyHitterList numHeavy numBucket).length = numHeavy := by
  rw [curTargets, length_targets, length_shufflePairs]

omit hash numHeavy numBucket HeavyHitterList rand in
/-- Where every item has a flow, the draws do not matter. -/
theorem length_group_placed {hash : U32 → U32} {n : Nat} {ps : List (Nat × Item)} (hps : Placed hash n ps)
    (hne : ∀ x ∈ ps.map Prod.snd, x.flowID ≠ 0) (b : Nat) :
    (group ps b).length = (ps.map Prod.snd).countP fun x => (hash x.flowID).val % n == b := by
  rw [group, List.length_map, ← List.countP_eq_length_filter, List.countP_map]
  refine List.countP_congr fun p hp => ?_
  rw [Function.comp_apply, hps.eq p hp (hne p.2 (List.mem_map_of_mem hp))]

theorem group_of_forall_lt {n : Nat} {ps : List (Nat × Item)} (hps : ∀ p ∈ ps, p.1 < n) {b : Nat} (hb : n ≤ b) :
    group ps b = [] := by
  unfold group
  rw [List.map_eq_nil_iff, List.filter_eq_nil_iff]
  intro p hp he
  rw [beq_iff_eq] at he
  have := hps p hp
  omega

theorem length_content (maxsizeBucket : Nat) (t : Table) (b : Nat) :
    (t.content maxsizeBucket b).length = (t.idcList b).ind2 := by
  unfold Table.content
  dsimp only
  split_ifs <;> exact length_load _ _ _

theorem idcList_foldl_deltaBucket (maxsizeBucket : Nat) (t : Table) (is : List Nat) :
    (is.foldl (deltaBucket maxsizeBucket) t).idcList = t.idcList := by
  induction is generalizing t with
  | nil => rfl
  | cons i is ih =>
    rw [List.foldl_cons, ih]
    unfold deltaBucket
    dsimp only
    split_ifs <;> rfl

variable {numBucket}

theorem prevTargets_lt (hb : 0 < numBucket) :
    ∀ p ∈ prevTargets hash rand HeavyHitterList numHeavy numBucket, p.1 < numBucket :=
  (targets_placed hash hb _ _).lt

theorem curTargets_lt (hb : 0 < numBucket) :
    ∀ p ∈ curTargets hash rand HeavyHitterList numHeavy numBucket, p.1 < numBucket :=
  (targets_placed hash hb _ _).lt

theorem sum_loads (hb : 0 < numBucket) :
    ∑ b ∈ Finset.range numBucket, (prevLoad hash rand HeavyHitterList numHeavy numBucket b +
      curLoad hash rand HeavyHitterList numHeavy numBucket b) = 2 * numHeavy := by
  have hprev := sum_group (prevTargets_lt hash rand HeavyHitterList numHeavy hb)
  have hcur := sum_group (curTargets_lt hash rand HeavyHitterList numHeavy hb)
  rw [length_prevTargets] at hprev
  rw [length_curTargets] at hcur
  rw [Finset.sum_add_distrib, two_mul]
  exact congrArg₂ (· + ·) hprev hcur

theorem OHeavyChange_eq (mem : Tables) (maxnumBucket maxsizeBucket : Nat) :
    OHeavyChange hash rand mem HeavyHitterList numHeavy numBucket maxnumBucket maxsizeBucket =
      ((prevTargets hash rand HeavyHitterList numHeavy numBucket).foldlM (fun t p => insertPre t p.1 p.2)
        (startTable mem)).bind fun t =>
      ((curTargets hash rand HeavyHitterList numHeavy numBucket).foldlM
        (fun t p => insertCur maxnumBucket maxsizeBucket t p.1 p.2) (startCur t)).bind fun t =>
      let l := (List.range numBucket).flatMap
        (((List.range numBucket).foldl (deltaBucket maxsizeBucket) t).content maxsizeBucket)
      if l.length ≠ 2 * numHeavy then none
      else some (sortDESC numHeavy l,
        (sortDESC numHeavy l).foldl (fun count x => count + OMove 1 0 (decide (0 < x.size))) 0) := by
  unfold OHeavyChange buildTable
  dsimp only
  rw [Option.bind_eq_bind, Option.bind_eq_bind, Option.bind_assoc]
  rfl

theorem prevLoop_spec {mem : Tables} {t₁ : Table}
    (h : (prevTargets hash rand HeavyHitterList numHeavy numBucket).foldlM (fun t p => insertPre t p.1 p.2) (startTable mem) =
      some t₁) :
    t₁.preContent = group (prevTargets hash rand HeavyHitterList numHeavy numBucket) ∧
      (∀ b, ((startCur t₁).idcList b).ind1 = prevLoad hash rand HeavyHitterList numHeavy numBucket b) ∧
      (∀ b, ((startCur t₁).idcList b).ind2 = prevLoad hash rand HeavyHitterList numHeavy numBucket b) ∧
      (∀ b, prevLoad hash rand HeavyHitterList numHeavy numBucket b ≤ BT_BUCKET_SIZE) ∧ (startCur t₁).tmpCount = 0 := by
  have hnil : (startTable mem).preContent = group [] := rfl
  obtain ⟨hcontent, -, hle⟩ := foldlM_insertPre h [] hnil fun i => Nat.zero_le _
  obtain ⟨hind1, htmp⟩ := foldlM_insertPre_ind1 h
  have hload : ∀ b, (t₁.idcList b).ind1 = prevLoad hash rand HeavyHitterList numHeavy numBucket b :=
    fun b => (hind1 b).trans (Nat.zero_add _)
  exact ⟨hcontent, hload, hload, fun b => (hload b).symm.trans_le (hle b), htmp⟩

/-- The last check of `OHeavyChange`: every item is somewhere. -/
theorem length_merged {maxnumBucket maxsizeBucket : Nat} {pre cur : List (Nat × Item)} (hpre : ∀ p ∈ pre, p.1 < numBucket)
    (hcur : ∀ p ∈ cur, p.1 < numBucket) {t₁ t : Table} (hind2 : ∀ b, (t₁.idcList b).ind2 = (group pre b).length)
    (ht : cur.foldlM (fun t p => insertCur maxnumBucket maxsizeBucket t p.1 p.2) t₁ = some t) :
    ((List.range numBucket).flatMap
      (((List.range numBucket).foldl (deltaBucket maxsizeBucket) t).content maxsizeBucket)).length =
        pre.length + cur.length := by
  have hcontent : ∀ b, (((List.range numBucket).foldl (deltaBucket maxsizeBucket) t).content maxsizeBucket b).length =
      (group pre b).length + (group cur b).length := by
    intro b
    rw [length_content, idcList_foldl_deltaBucket, foldlM_insertCur_ind2 ht, hind2]
  have hsum : ∀ f : Nat → Nat, ((List.range numBucket).map f).sum = ∑ b ∈ Finset.range numBucket, f b := fun _ => rfl
  rw [List.length_flatMap, hsum, Finset.sum_congr rfl fun b _ => hcontent b, Finset.sum_add_distrib, sum_group hpre,
    sum_group hcur]

/-- **`OHeavyChange` succeeds** exactly if the loads fit. -/
theorem OHeavyChange_isSome_iff (mem : Tables) (hb : 0 < numBucket) {maxnumBucket maxsizeBucket : Nat}
    (hmax : BT_BUCKET_SIZE < maxsizeBucket) :
    (OHeavyChange hash rand mem HeavyHitterList numHeavy numBucket maxnumBucket maxsizeBucket).isSome ↔
      Fits numBucket maxnumBucket maxsizeBucket (prevLoad hash rand HeavyHitterList numHeavy numBucket)
        (curLoad hash rand HeavyHitterList numHeavy numBucket) := by
  have hpre := prevTargets_lt hash rand HeavyHitterList numHeavy hb
  have hcur := curTargets_lt hash rand HeavyHitterList numHeavy hb
  have hzero : ∀ b, ((startTable mem).idcList b).ind1 = 0 := fun _ => rfl
  have hfirst := foldlM_insertPre_isSome hpre fun b => (hzero b).le.trans (Nat.zero_le _)
  simp only [hzero, Nat.zero_add] at hfirst
  rw [OHeavyChange_eq]
  cases h1 : (prevTargets hash rand HeavyHitterList numHeavy numBucket).foldlM (fun t p => insertPre t p.1 p.2)
      (startTable mem) with
  | none =>
    rw [h1] at hfirst
    exact iff_of_false Bool.false_ne_true fun h => Bool.false_ne_true (hfirst.mpr h.prev_le)
  | some t₁ =>
    obtain ⟨-, -, hind2, hle, htmp⟩ := prevLoop_spec hash rand HeavyHitterList numHeavy h1
    have hinside : ∀ b, ((startCur t₁).idcList b).ind2 ≤ BT_BUCKET_SIZE := fun b => (hind2 b).trans_le (hle b)
    have hsecond := foldlM_insertCur_isSome hmax hcur (fun b => (hinside b).trans hmax.le)
      (htmp.le.trans (Nat.zero_le maxnumBucket))
    rw [moving_of_le numBucket hinside, htmp, Nat.zero_add] at hsecond
    simp only [hind2] at hsecond
    rw [Option.bind_some]
    cases h2 : (curTargets hash rand HeavyHitterList numHeavy numBucket).foldlM
        (fun t p => insertCur maxnumBucket maxsizeBucket t p.1 p.2) (startCur t₁) with
    | none =>
      rw [h2] at hsecond
      exact iff_of_false Bool.false_ne_true fun h => Bool.false_ne_true (hsecond.mpr ⟨h.le, h.moved⟩)
    | some t =>
      rw [h2] at hsecond
      obtain ⟨hrows, hmoved⟩ := hsecond.mp rfl
      have hlen := length_merged hpre hcur hind2 h2
      rw [length_prevTargets, length_curTargets, ← two_mul] at hlen
      rw [Option.bind_some]
      dsimp only
      rw [if_neg (not_not.mpr hlen)]
      exact iff_of_true rfl ⟨fun b _ => hle b, hrows, hmoved⟩

section Flows
variable {HeavyHitterList : Nat → Item} {numHeavy numBucket : Nat}

/-- If no entry is empty, the draws do not decide how many go to a bucket. -/
theorem length_group_targets (hb : 0 < numBucket) (rand rand' : Nat → Int) {list : Nat → Item}
    (h : ∀ i < numHeavy, (list i).flowID ≠ 0) (b : Nat) :
    (group (targets hash numBucket rand' (shufflePairs numHeavy numBucket rand list)) b).length =
      ((List.range numHeavy).map list).countP fun x => (hash x.flowID).val % numBucket == b := by
  have hperm := shufflePairs_perm numHeavy numBucket rand list
  have hne : ∀ x ∈ (targets hash numBucket rand' (shufflePairs numHeavy numBucket rand list)).map Prod.snd,
      x.flowID ≠ 0 := by
    intro x hx
    rw [targets_snd] at hx
    obtain ⟨i, hi, rfl⟩ := List.mem_map.mp (hperm.mem_iff.mp hx)
    exact h i (List.mem_range.mp hi)
  rw [length_group_placed (targets_placed hash hb _ _) hne, targets_snd, hperm.countP_eq]

theorem prevLoad_of_flows (hb : 0 < numBucket) (rand : Nat → Int)
    (h : ∀ i < numHeavy, (HeavyHitterList (numHeavy + i)).flowID ≠ 0) (b : Nat) :
    prevLoad hash rand HeavyHitterList numHeavy numBucket b =
      (load HeavyHitterList numHeavy numHeavy).countP fun x => (hash x.flowID).val % numBucket == b :=
  length_group_targets hash hb _ _ h b

theorem curLoad_of_flows (hb : 0 < numBucket) (rand : Nat → Int)
    (h : ∀ i < numHeavy, (HeavyHitterList i).flowID ≠ 0) (b : Nat) :
    curLoad hash rand HeavyHitterList numHeavy numBucket b =
      (load HeavyHitterList 0 numHeavy).countP fun x => (hash x.flowID).val % numBucket == b := by
  have hload : load HeavyHitterList 0 numHeavy = (List.range numHeavy).map HeavyHitterList :=
    List.map_congr_left fun i _ => by rw [Nat.zero_add]
  rw [hload]
  exact length_group_targets hash hb _ _ h b

end Flows

end Both

end FOSketch.Heavy
