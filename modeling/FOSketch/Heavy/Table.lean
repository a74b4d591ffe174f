import FOSketch.Heavy.Delta
import FOSketch.Memory

/-!
# The bucket table of `OHeavyChange`

`BucketTable` has 16 places a bucket. A bucket that gets a seventeenth item moves to a row of `tmpBucketTable`, and the
number of the row is kept in the first byte of the bucket it leaves. `content` reads a bucket wherever it is; in these
terms an insertion appends to one bucket (`insertCur_spec`) and `ODelta` rewrites one bucket (`deltaBucket_spec`), and
neither touches another one.
-/

namespace FOSketch.Heavy

open Memory

/-! ## The table in memory -/

structure Indicator where
  ind1 : Nat
  ind2 : Nat
  deriving DecidableEq

structure Table where
  BucketTable : Nat → Item
  tmpBucketTable : Nat → Item
  idcList : Nat → Indicator
  tmpCount : Nat

/-- `*(uint8_t *)` of an item: the low byte of its flow id. -/
def firstByte (x : Item) : Nat := x.flowID.val % 256

def setFirstByte (x : Item) (b : Nat) : Item :=
  { x with flowID := Fin.ofNat 4294967296 (x.flowID.val / 256 * 256 + b % 256) }

/-- The row bucket `i` moved to. -/
def Table.loca (t : Table) (i : Nat) : Nat := firstByte (t.BucketTable (BT_BUCKET_SIZE * i))

/-- One turn of the loop over the previous flows; `none` where the routine returns `0`. -/
def insertPre (t : Table) (ind : Nat) (tmp : Item) : Option Table :=
  let idc := t.idcList ind
  if BT_BUCKET_SIZE ≤ idc.ind1 then none
  else some { t with
    BucketTable := Function.update t.BucketTable (BT_BUCKET_SIZE * ind + idc.ind1) tmp
    idcList := Function.update t.idcList ind { idc with ind1 := idc.ind1 + 1 } }

/-- `idcList[i].ind2 = idcList[i].ind1` -/
def startCur (t : Table) : Table :=
  { t with idcList := fun i => { t.idcList i with ind2 := (t.idcList i).ind1 } }

/-- One turn of the loop over the current flows. -/
def insertCur (maxnumBucket maxsizeBucket : Nat) (t : Table) (ind : Nat) (tmp : Item) : Option Table :=
  let idc := t.idcList ind
  let idcList := Function.update t.idcList ind { idc with ind2 := idc.ind2 + 1 }
  if idc.ind2 = BT_BUCKET_SIZE then
    if maxnumBucket ≤ t.tmpCount then none
    else
      let rows := copy t.tmpBucketTable (t.tmpCount * 32) t.BucketTable (BT_BUCKET_SIZE * ind) BT_BUCKET_SIZE
      let first := t.BucketTable (BT_BUCKET_SIZE * ind)
      some {
        BucketTable := Function.update t.BucketTable (BT_BUCKET_SIZE * ind) (setFirstByte first t.tmpCount)
        tmpBucketTable := Function.update rows (t.tmpCount * maxsizeBucket + idc.ind2) tmp
        idcList := idcList
        tmpCount := t.tmpCount + 1 }
  else if BT_BUCKET_SIZE < idc.ind2 then
    if maxsizeBucket ≤ idc.ind2 then none
    else some { t with
      tmpBucketTable := Function.update t.tmpBucketTable (t.loca ind * maxsizeBucket + idc.ind2) tmp
      idcList := idcList }
  else some { t with
    BucketTable := Function.update t.BucketTable (BT_BUCKET_SIZE * ind + idc.ind2) tmp
    idcList := idcList }

/-- `ODelta` on bucket `i`, at `addr`. -/
def deltaBucket (maxsizeBucket : Nat) (t : Table) (i : Nat) : Table :=
  let idc := t.idcList i
  let delta := fun (mem : Nat → Item) (addr : Nat) =>
    let r := ODelta (load mem addr idc.ind1) (load mem (addr + idc.ind1) (idc.ind2 - idc.ind1)) 1
    store mem addr (r.1 ++ r.2)
  if BT_BUCKET_SIZE < idc.ind2 then { t with tmpBucketTable := delta t.tmpBucketTable (t.loca i * maxsizeBucket) }
  else { t with BucketTable := delta t.BucketTable (BT_BUCKET_SIZE * i) }

/-- The items of bucket `i`, wherever they are. -/
def Table.content (maxsizeBucket : Nat) (t : Table) (i : Nat) : List Item :=
  let leng := (t.idcList i).ind2
  if BT_BUCKET_SIZE < leng then load t.tmpBucketTable (t.loca i * maxsizeBucket) leng
  else load t.BucketTable (BT_BUCKET_SIZE * i) leng

/-! ## Memory -/

theorem firstByte_setFirstByte (x : Item) {b : Nat} (hb : b < 256) : firstByte (setFirstByte x b) = b := by
  have hlt := x.flowID.isLt
  have hval : (setFirstByte x b).flowID.val = (x.flowID.val / 256 * 256 + b % 256) % 4294967296 := rfl
  rw [firstByte, hval]
  omega

theorem place_ne {i j k l : Nat} (hij : i ≠ j) (hk : k < BT_BUCKET_SIZE) (hl : l < BT_BUCKET_SIZE) :
    BT_BUCKET_SIZE * i + k ≠ BT_BUCKET_SIZE * j + l := by
  unfold BT_BUCKET_SIZE at *
  omega

/-! ## The previous flows -/

/-- Before the first overflow the buckets are where they started. -/
def Table.preContent (t : Table) (i : Nat) : List Item := load t.BucketTable (BT_BUCKET_SIZE * i) (t.idcList i).ind1

theorem insertPre_cases {t t' : Table} {ind : Nat} {tmp : Item} (h : insertPre t ind tmp = some t') :
    (t.idcList ind).ind1 < BT_BUCKET_SIZE ∧
      t' = { t with
        BucketTable := Function.update t.BucketTable (BT_BUCKET_SIZE * ind + (t.idcList ind).ind1) tmp
        idcList := Function.update t.idcList ind { t.idcList ind with ind1 := (t.idcList ind).ind1 + 1 } } := by
  unfold insertPre at h
  dsimp only at h
  split_ifs at h with hfull
  exact ⟨not_le.mp hfull, (Option.some.inj h).symm⟩

theorem insertPre_spec {t t' : Table} {ind : Nat} {tmp : Item} (h : insertPre t ind tmp = some t')
    (hle : ∀ i, (t.idcList i).ind1 ≤ BT_BUCKET_SIZE) :
    t'.preContent = Function.update t.preContent ind (t.preContent ind ++ [tmp]) ∧ t'.tmpCount = t.tmpCount ∧
      ∀ i, (t'.idcList i).ind1 ≤ BT_BUCKET_SIZE := by
  obtain ⟨hfull, rfl⟩ := insertPre_cases h
  refine ⟨?_, rfl, fun i => ?_⟩
  · funext i
    unfold Table.preContent
    by_cases hi : i = ind
    · subst hi
      simp only [Function.update_self]
      rw [load_succ, Function.update_self]
      congr 1
      exact load_update_outside _ (Or.inr (by omega)) _
    · simp only [Function.update_of_ne hi]
      exact load_congr fun k hk => Function.update_of_ne (place_ne hi (lt_of_lt_of_le hk (hle i)) hfull) _ _
  · dsimp only
    by_cases hi : i = ind
    · subst hi
      rw [Function.update_self]
      exact hfull
    · rw [Function.update_of_ne hi]
      exact hle i

/-! ## The current flows -/

/-- Every bucket with more than 16 items has a row of its own. -/
structure Rows (t : Table) : Prop where
  ind_le : ∀ i, (t.idcList i).ind1 ≤ (t.idcList i).ind2
  ind2_le : ∀ i, (t.idcList i).ind2 ≤ 32
  loca_lt : ∀ i, BT_BUCKET_SIZE < (t.idcList i).ind2 → t.loca i < t.tmpCount
  loca_inj : ∀ i j, BT_BUCKET_SIZE < (t.idcList i).ind2 → BT_BUCKET_SIZE < (t.idcList j).ind2 →
    t.loca i = t.loca j → i = j

/-- The same for rows of `maxsizeBucket` places. -/
structure RowsAt (maxsizeBucket : Nat) (t : Table) : Prop where
  ind_le : ∀ i, (t.idcList i).ind1 ≤ (t.idcList i).ind2
  ind2_le : ∀ i, (t.idcList i).ind2 ≤ maxsizeBucket
  loca_lt : ∀ i, BT_BUCKET_SIZE < (t.idcList i).ind2 → t.loca i < t.tmpCount
  loca_inj : ∀ i j, BT_BUCKET_SIZE < (t.idcList i).ind2 → BT_BUCKET_SIZE < (t.idcList j).ind2 →
    t.loca i = t.loca j → i = j

theorem rows_iff {t : Table} : Rows t ↔ RowsAt 32 t :=
  ⟨fun h => ⟨h.ind_le, h.ind2_le, h.loca_lt, h.loca_inj⟩, fun h => ⟨h.ind_le, h.ind2_le, h.loca_lt, h.loca_inj⟩⟩

section RowsOf
variable {maxsizeBucket : Nat}

theorem row_ne {i j k l : Nat} (hij : i ≠ j) (hk : k < maxsizeBucket) (hl : l < maxsizeBucket) :
    i * maxsizeBucket + k ≠ j * maxsizeBucket + l := by
  rcases Nat.lt_or_gt_of_ne hij with h | h
  · have hle : (i + 1) * maxsizeBucket ≤ j * maxsizeBucket := Nat.mul_le_mul_right _ h
    rw [Nat.succ_mul] at hle
    omega
  · have hle : (j + 1) * maxsizeBucket ≤ i * maxsizeBucket := Nat.mul_le_mul_right _ h
    rw [Nat.succ_mul] at hle
    omega

/-- A row ends before a later one begins. -/
theorem row_before {i j k : Nat} (hij : i < j) (hk : k < maxsizeBucket) : i * maxsizeBucket + k < j * maxsizeBucket := by
  have hle : (i + 1) * maxsizeBucket ≤ j * maxsizeBucket := Nat.mul_le_mul_right _ hij
  rw [Nat.succ_mul] at hle
  omega

theorem content_inside {t : Table} {i : Nat} (h : (t.idcList i).ind2 ≤ BT_BUCKET_SIZE) :
    t.content maxsizeBucket i = load t.BucketTable (BT_BUCKET_SIZE * i) (t.idcList i).ind2 := if_neg (not_lt.mpr h)

theorem content_moved {t : Table} {i : Nat} (h : BT_BUCKET_SIZE < (t.idcList i).ind2) :
    t.content maxsizeBucket i = load t.tmpBucketTable (t.loca i * maxsizeBucket) (t.idcList i).ind2 := if_pos h

/-- Only bucket `ind` changes: the other buckets keep their counts and rows, and `ind` has a row no other bucket has. -/
theorem RowsAt.frame {t t' : Table} (h : RowsAt maxsizeBucket t) {ind : Nat} (hidc : ∀ i ≠ ind, t'.idcList i = t.idcList i)
    (hle : (t'.idcList ind).ind1 ≤ (t'.idcList ind).ind2) (hle' : (t'.idcList ind).ind2 ≤ maxsizeBucket)
    (hcount : t.tmpCount ≤ t'.tmpCount)
    (hloca : ∀ i ≠ ind, BT_BUCKET_SIZE < (t.idcList i).ind2 → t'.loca i = t.loca i)
    (hrow : BT_BUCKET_SIZE < (t'.idcList ind).ind2 → t'.loca ind < t'.tmpCount ∧
      ∀ i ≠ ind, BT_BUCKET_SIZE < (t.idcList i).ind2 → t.loca i ≠ t'.loca ind) : RowsAt maxsizeBucket t' := by
  have hother : ∀ i ≠ ind, BT_BUCKET_SIZE < (t'.idcList i).ind2 →
      BT_BUCKET_SIZE < (t.idcList i).ind2 ∧ t'.loca i = t.loca i := by
    intro i hi hgt
    rw [hidc i hi] at hgt
    exact ⟨hgt, hloca i hi hgt⟩
  refine ⟨fun i => ?_, fun i => ?_, fun i hi => ?_, fun i j hi hj he => ?_⟩
  · by_cases hne : i = ind
    · rwa [hne]
    · rw [hidc i hne]
      exact h.ind_le i
  · by_cases hne : i = ind
    · rwa [hne]
    · rw [hidc i hne]
      exact h.ind2_le i
  · by_cases hne : i = ind
    · rw [hne] at hi ⊢
      exact (hrow hi).1
    · obtain ⟨hgt, heq⟩ := hother i hne hi
      rw [heq]
      exact (h.loca_lt i hgt).trans_le hcount
  · by_cases hnei : i = ind <;> by_cases hnej : j = ind
    · rw [hnei, hnej]
    · obtain ⟨hgt, heq⟩ := hother j hnej hj
      rw [hnei] at hi he
      exact absurd (he.trans heq).symm ((hrow hi).2 j hnej hgt)
    · obtain ⟨hgt, heq⟩ := hother i hnei hi
      rw [hnej] at hj he
      exact absurd (heq.symm.trans he) ((hrow hj).2 i hnei hgt)
    · obtain ⟨hgti, heqi⟩ := hother i hnei hi
      obtain ⟨hgtj, heqj⟩ := hother j hnej hj
      rw [heqi, heqj] at he
      exact h.loca_inj i j hgti hgtj he

/-- A bucket keeps its items when its count, its row number and the places it is read from stay. -/
theorem content_congr {t t' : Table} {i : Nat} (hidc : t'.idcList i = t.idcList i)
    (hrow : BT_BUCKET_SIZE < (t.idcList i).ind2 → t'.loca i = t.loca i ∧
      ∀ k < (t.idcList i).ind2, t'.tmpBucketTable (t.loca i * maxsizeBucket + k) =
        t.tmpBucketTable (t.loca i * maxsizeBucket + k))
    (htable : (t.idcList i).ind2 ≤ BT_BUCKET_SIZE → ∀ k < (t.idcList i).ind2,
      t'.BucketTable (BT_BUCKET_SIZE * i + k) = t.BucketTable (BT_BUCKET_SIZE * i + k)) :
    t'.content maxsizeBucket i = t.content maxsizeBucket i := by
  by_cases hgt : BT_BUCKET_SIZE < (t.idcList i).ind2
  · obtain ⟨hloca, hmem⟩ := hrow hgt
    rw [content_moved hgt, content_moved (by rw [hidc]; exact hgt), hidc, hloca]
    exact load_congr hmem
  · rw [not_lt] at hgt
    rw [content_inside hgt, content_inside (by rw [hidc]; exact hgt), hidc]
    exact load_congr (htable hgt)

theorem idcList_grown (t t' : Table) {ind : Nat}
    (hidc : t'.idcList = Function.update t.idcList ind { t.idcList ind with ind2 := (t.idcList ind).ind2 + 1 }) :
    (∀ i ≠ ind, t'.idcList i = t.idcList i) ∧ (t'.idcList ind).ind1 = (t.idcList ind).ind1 ∧
      (t'.idcList ind).ind2 = (t.idcList ind).ind2 + 1 := by
  refine ⟨fun i hi => ?_, ?_, ?_⟩
  · rw [hidc]
    exact Function.update_of_ne hi _ _
  · rw [hidc, Function.update_self]
  · rw [hidc, Function.update_self]

/-- What an insertion does: the bucket has room, has a row, or moves to one. -/
theorem insertCur_cases {maxnumBucket : Nat} {t t' : Table} {ind : Nat} {tmp : Item}
    (h : insertCur maxnumBucket maxsizeBucket t ind tmp = some t') :
    ((t.idcList ind).ind2 < BT_BUCKET_SIZE ∧
      t' = { t with
        BucketTable := Function.update t.BucketTable (BT_BUCKET_SIZE * ind + (t.idcList ind).ind2) tmp
        idcList := Function.update t.idcList ind { t.idcList ind with ind2 := (t.idcList ind).ind2 + 1 } }) ∨
    (BT_BUCKET_SIZE < (t.idcList ind).ind2 ∧ (t.idcList ind).ind2 < maxsizeBucket ∧
      t' = { t with
        tmpBucketTable := Function.update t.tmpBucketTable (t.loca ind * maxsizeBucket + (t.idcList ind).ind2) tmp
        idcList := Function.update t.idcList ind { t.idcList ind with ind2 := (t.idcList ind).ind2 + 1 } }) ∨
    ((t.idcList ind).ind2 = BT_BUCKET_SIZE ∧ t.tmpCount < maxnumBucket ∧
      t' = {
        BucketTable := Function.update t.BucketTable (BT_BUCKET_SIZE * ind)
          (setFirstByte (t.BucketTable (BT_BUCKET_SIZE * ind)) t.tmpCount)
        tmpBucketTable := Function.update
          (copy t.tmpBucketTable (t.tmpCount * 32) t.BucketTable (BT_BUCKET_SIZE * ind) BT_BUCKET_SIZE)
          (t.tmpCount * maxsizeBucket + (t.idcList ind).ind2) tmp
        idcList := Function.update t.idcList ind { t.idcList ind with ind2 := (t.idcList ind).ind2 + 1 }
        tmpCount := t.tmpCount + 1 }) := by
  unfold insertCur at h
  dsimp only at h
  split_ifs at h with hfull hroom hgt hlt
  · exact Or.inr (Or.inr ⟨hfull, not_le.mp hroom, (Option.some.inj h).symm⟩)
  · exact Or.inr (Or.inl ⟨hgt, not_le.mp hlt, (Option.some.inj h).symm⟩)
  · exact Or.inl ⟨by omega, (Option.some.inj h).symm⟩

theorem insertCur_idcList {maxnumBucket : Nat} {t t' : Table} {ind : Nat} {tmp : Item}
    (h : insertCur maxnumBucket maxsizeBucket t ind tmp = some t') :
    t'.idcList = Function.update t.idcList ind { t.idcList ind with ind2 := (t.idcList ind).ind2 + 1 } := by
  rcases insertCur_cases h with ⟨-, rfl⟩ | ⟨-, -, rfl⟩ | ⟨-, -, rfl⟩
  · rfl
  · rfl
  · rfl

theorem insertCur_ind1 {maxnumBucket : Nat} {t t' : Table} {ind : Nat} {tmp : Item}
    (h : insertCur maxnumBucket maxsizeBucket t ind tmp = some t') (i : Nat) : (t'.idcList i).ind1 = (t.idcList i).ind1 := by
  obtain ⟨hother, hself, -⟩ := idcList_grown t t' (insertCur_idcList h)
  by_cases hi : i = ind
  · rw [hi, hself]
  · rw [hother i hi]

theorem insertCur_inside (hmax : BT_BUCKET_SIZE < maxsizeBucket) {t : Table} (h : RowsAt maxsizeBucket t) {ind : Nat}
    (tmp : Item) (hroom : (t.idcList ind).ind2 < BT_BUCKET_SIZE) :
    let t' := { t with
      BucketTable := Function.update t.BucketTable (BT_BUCKET_SIZE * ind + (t.idcList ind).ind2) tmp
      idcList := Function.update t.idcList ind { t.idcList ind with ind2 := (t.idcList ind).ind2 + 1 } }
    RowsAt maxsizeBucket t' ∧
      t'.content maxsizeBucket = Function.update (t.content maxsizeBucket) ind (t.content maxsizeBucket ind ++ [tmp]) := by
  intro t'
  obtain ⟨hidc, hind1, hind2⟩ := idcList_grown t t' rfl
  have htable : ∀ i ≠ ind, ∀ k < BT_BUCKET_SIZE, t'.BucketTable (BT_BUCKET_SIZE * i + k) =
      t.BucketTable (BT_BUCKET_SIZE * i + k) := fun i hi k hk => Function.update_of_ne (place_ne hi hk hroom) _ _
  have hloca : ∀ i ≠ ind, t'.loca i = t.loca i := fun i hi => congrArg firstByte (htable i hi 0 (by decide))
  refine ⟨h.frame hidc ?_ ?_ le_rfl (fun i hi _ => hloca i hi) fun hgt => ?_, ?_⟩
  · rw [hind1, hind2]
    exact (h.ind_le ind).trans (Nat.le_succ _)
  · rw [hind2]
    exact hroom.trans hmax
  · rw [hind2] at hgt
    omega
  · funext i
    by_cases hi : i = ind
    · subst hi
      rw [Function.update_self, content_inside hroom.le, content_inside (by rw [hind2]; exact hroom), hind2, load_succ]
      congr 1
      · exact load_update_outside _ (Or.inr (by omega)) _
      · exact congrArg (fun x => [x]) (Function.update_self _ _ _)
    · rw [Function.update_of_ne hi]
      exact content_congr (hidc i hi) (fun _ => ⟨hloca i hi, fun k _ => rfl⟩) fun hle k hk => htable i hi k (hk.trans_le hle)

theorem insertCur_moved {t : Table} (h : RowsAt maxsizeBucket t) {ind : Nat} (tmp : Item)
    (hgt : BT_BUCKET_SIZE < (t.idcList ind).ind2) (hlt : (t.idcList ind).ind2 < maxsizeBucket) :
    let t' := { t with
      tmpBucketTable := Function.update t.tmpBucketTable (t.loca ind * maxsizeBucket + (t.idcList ind).ind2) tmp
      idcList := Function.update t.idcList ind { t.idcList ind with ind2 := (t.idcList ind).ind2 + 1 } }
    RowsAt maxsizeBucket t' ∧
      t'.content maxsizeBucket = Function.update (t.content maxsizeBucket) ind (t.content maxsizeBucket ind ++ [tmp]) := by
  intro t'
  obtain ⟨hidc, hind1, hind2⟩ := idcList_grown t t' rfl
  have hloca : t'.loca = t.loca := rfl
  have hapart : ∀ i ≠ ind, BT_BUCKET_SIZE < (t.idcList i).ind2 → t.loca i ≠ t.loca ind :=
    fun i hi hgti he => hi (h.loca_inj i ind hgti hgt he)
  refine ⟨h.frame hidc ?_ ?_ le_rfl (fun i _ _ => congrFun hloca i) fun _ => ⟨h.loca_lt ind hgt, hapart⟩, ?_⟩
  · rw [hind1, hind2]
    exact (h.ind_le ind).trans (Nat.le_succ _)
  · rw [hind2]
    exact hlt
  · funext i
    by_cases hi : i = ind
    · subst hi
      rw [Function.update_self, content_moved hgt, content_moved (by rw [hind2]; omega), hind2, hloca, load_succ]
      congr 1
      · exact load_update_outside _ (Or.inr (by omega)) _
      · exact congrArg (fun x => [x]) (Function.update_self _ _ _)
    · rw [Function.update_of_ne hi]
      refine content_congr (hidc i hi) (fun hgti => ⟨rfl, fun k hk => ?_⟩) fun _ k _ => rfl
      exact Function.update_of_ne (row_ne (hapart i hi hgti) (hk.trans_le (h.ind2_le i)) hlt) _ _

theorem insertCur_moves (hmax : BT_BUCKET_SIZE < maxsizeBucket) {t : Table} (h : RowsAt maxsizeBucket t) {ind : Nat}
    (tmp : Item) (hfull : (t.idcList ind).ind2 = BT_BUCKET_SIZE) (hcount : t.tmpCount < 256) :
    let rows := copy t.tmpBucketTable (t.tmpCount * 32) t.BucketTable (BT_BUCKET_SIZE * ind) BT_BUCKET_SIZE
    let t' := {
      BucketTable := Function.update t.BucketTable (BT_BUCKET_SIZE * ind)
        (setFirstByte (t.BucketTable (BT_BUCKET_SIZE * ind)) t.tmpCount)
      tmpBucketTable := Function.update rows (t.tmpCount * maxsizeBucket + (t.idcList ind).ind2) tmp
      idcList := Function.update t.idcList ind { t.idcList ind with ind2 := (t.idcList ind).ind2 + 1 }
      tmpCount := t.tmpCount + 1 : Table }
    RowsAt maxsizeBucket t' ∧ (t.tmpCount * 32 = t.tmpCount * maxsizeBucket →
      t'.content maxsizeBucket = Function.update (t.content maxsizeBucket) ind (t.content maxsizeBucket ind ++ [tmp])) := by
  intro rows t'
  obtain ⟨hidc, hind1, hind2⟩ := idcList_grown t t' rfl
  rw [hfull] at hind2
  have htable : ∀ i ≠ ind, ∀ k < BT_BUCKET_SIZE, t'.BucketTable (BT_BUCKET_SIZE * i + k) =
      t.BucketTable (BT_BUCKET_SIZE * i + k) :=
    fun i hi k hk => Function.update_of_ne (place_ne hi hk (show 0 < BT_BUCKET_SIZE by decide)) _ _
  have hloca : ∀ i ≠ ind, t'.loca i = t.loca i := fun i hi => congrArg firstByte (htable i hi 0 (by decide))
  have hlocaself : t'.loca ind = t.tmpCount := by
    have hfirst : t'.BucketTable (BT_BUCKET_SIZE * ind) = setFirstByte (t.BucketTable (BT_BUCKET_SIZE * ind)) t.tmpCount :=
      Function.update_self _ _ _
    unfold Table.loca
    rw [hfirst, firstByte_setFirstByte _ hcount]
  refine ⟨h.frame hidc ?_ ?_ (Nat.le_succ _) (fun i hi _ => hloca i hi) fun _ => ⟨?_, fun i hi hgt => ?_⟩, ?_⟩
  · rw [hind1, hind2, ← hfull]
    exact (h.ind_le ind).trans (Nat.le_succ _)
  · rw [hind2]
    exact hmax
  · rw [hlocaself]
    exact Nat.lt_succ_self _
  · rw [hlocaself]
    exact (h.loca_lt i hgt).ne
  · intro hstride
    funext i
    by_cases hi : i = ind
    · subst hi
      rw [Function.update_self, content_inside hfull.le, content_moved (by rw [hind2]; exact Nat.lt_succ_self _), hind2,
        hfull, hlocaself, load_succ]
      congr 1
      · refine load_congr fun k hk => ?_
        change Function.update rows _ _ _ = _
        rw [Function.update_of_ne (by omega), ← hstride]
        exact (if_pos (by omega)).trans (by rw [Nat.add_sub_cancel_left])
      · apply congrArg (fun x => [x])
        change Function.update rows _ _ _ = _
        rw [← hfull, Function.update_self]
    · rw [Function.update_of_ne hi]
      refine content_congr (hidc i hi) (fun hgt => ⟨hloca i hi, fun k hk => ?_⟩)
        fun hle k hk => htable i hi k (hk.trans_le hle)
      have hbefore := row_before (h.loca_lt i hgt) (hk.trans_le (h.ind2_le i))
      change Function.update rows _ _ _ = _
      rw [Function.update_of_ne (by omega)]
      exact if_neg (by omega)

/-- **An insertion** keeps the rows apart as long as their numbers fit a byte, and appends to one bucket unless a row is
copied to another place than it is read from. -/
theorem insertCur_rows (hmax : BT_BUCKET_SIZE < maxsizeBucket) {maxnumBucket : Nat} {t t' : Table}
    (h : RowsAt maxsizeBucket t) {ind : Nat} {tmp : Item} (hcount : (t.idcList ind).ind2 = BT_BUCKET_SIZE → t.tmpCount < 256)
    (hins : insertCur maxnumBucket maxsizeBucket t ind tmp = some t') :
    RowsAt maxsizeBucket t' ∧
      (((t.idcList ind).ind2 = BT_BUCKET_SIZE → t.tmpCount * 32 = t.tmpCount * maxsizeBucket) →
        t'.content maxsizeBucket =
          Function.update (t.content maxsizeBucket) ind (t.content maxsizeBucket ind ++ [tmp])) := by
  rcases insertCur_cases hins with ⟨hroom, rfl⟩ | ⟨hgt, hlt, rfl⟩ | ⟨hfull, -, rfl⟩
  · obtain ⟨hrows, hcontent⟩ := insertCur_inside hmax h tmp hroom
    exact ⟨hrows, fun _ => hcontent⟩
  · obtain ⟨hrows, hcontent⟩ := insertCur_moved h tmp hgt hlt
    exact ⟨hrows, fun _ => hcontent⟩
  · obtain ⟨hrows, hcontent⟩ := insertCur_moves hmax h tmp hfull (hcount hfull)
    exact ⟨hrows, fun hstride => hcontent (hstride hfull)⟩

end RowsOf

theorem insertCur_spec {maxnumBucket : Nat} (hmax : maxnumBucket ≤ 256) {t t' : Table} (h : Rows t) {ind : Nat}
    {tmp : Item} (hins : insertCur maxnumBucket 32 t ind tmp = some t') :
    Rows t' ∧ t'.content 32 = Function.update (t.content 32) ind (t.content 32 ind ++ [tmp]) ∧
      ∀ i, (t'.idcList i).ind1 = (t.idcList i).ind1 := by
  have hcount : (t.idcList ind).ind2 = BT_BUCKET_SIZE → t.tmpCount < 256 := by
    intro hfull
    rcases insertCur_cases hins with ⟨hroom, -⟩ | ⟨hgt, -⟩ | ⟨-, hlt, -⟩
    · exact absurd hfull hroom.ne
    · exact absurd hfull hgt.ne'
    · exact hlt.trans_le hmax
  obtain ⟨hrows, hcontent⟩ := insertCur_rows (by decide) (rows_iff.mp h) hcount hins
  exact ⟨rows_iff.mpr hrows, hcontent fun _ => rfl, insertCur_ind1 hins⟩

/-! ## The differences -/

/-- `ODelta` on the first `ind1` items of a bucket and the rest. -/
def deltaList (ind1 : Nat) (l : List Item) : List Item :=
  (ODelta (l.take ind1) (l.drop ind1) 1).1 ++ (ODelta (l.take ind1) (l.drop ind1) 1).2

theorem length_deltaList (ind1 : Nat) (l : List Item) : (deltaList ind1 l).length = l.length := by
  rw [deltaList, List.length_append, length_ODelta_fst, length_ODelta_snd, ← List.length_append, List.take_append_drop]

theorem load_split (mem : Nat → Item) (addr : Nat) {ind1 ind2 : Nat} (h : ind1 ≤ ind2) :
    load mem addr ind1 = (load mem addr ind2).take ind1 ∧
      load mem (addr + ind1) (ind2 - ind1) = (load mem addr ind2).drop ind1 := by
  have hsplit := load_add mem addr ind1 (ind2 - ind1)
  rw [Nat.add_sub_cancel' h] at hsplit
  rw [hsplit, List.take_left' (length_load _ _ _), List.drop_left' (length_load _ _ _)]
  exact ⟨rfl, rfl⟩

/-- What `deltaBucket` writes, for the items at `addr` of `mem`. -/
theorem deltaBucket_store (mem : Nat → Item) (addr : Nat) {ind1 ind2 : Nat} (h : ind1 ≤ ind2) :
    store mem addr ((ODelta (load mem addr ind1) (load mem (addr + ind1) (ind2 - ind1)) 1).1 ++
      (ODelta (load mem addr ind1) (load mem (addr + ind1) (ind2 - ind1)) 1).2) =
      store mem addr (deltaList ind1 (load mem addr ind2)) := by
  obtain ⟨h1, h2⟩ := load_split mem addr h
  rw [h1, h2, deltaList]

theorem length_deltaList_load (mem : Nat → Item) (addr ind1 ind2 : Nat) :
    (deltaList ind1 (load mem addr ind2)).length = ind2 := by rw [length_deltaList, length_load]

/-- A bucket is read back as `ODelta` left it. -/
theorem load_deltaList (mem : Nat → Item) (addr ind1 ind2 : Nat) :
    load (store mem addr (deltaList ind1 (load mem addr ind2))) addr ind2 = deltaList ind1 (load mem addr ind2) := by
  have hload := load_store mem addr (deltaList ind1 (load mem addr ind2))
  rwa [length_deltaList_load] at hload

theorem deltaBucket_moved {t : Table} (h : Rows t) {i : Nat} (hgt : BT_BUCKET_SIZE < (t.idcList i).ind2) :
    let t' := { t with
      tmpBucketTable := store t.tmpBucketTable (t.loca i * 32)
        (deltaList (t.idcList i).ind1 (load t.tmpBucketTable (t.loca i * 32) (t.idcList i).ind2)) }
    Rows t' ∧ t'.content 32 = Function.update (t.content 32) i (deltaList (t.idcList i).ind1 (t.content 32 i)) := by
  intro t'
  refine ⟨⟨h.ind_le, h.ind2_le, h.loca_lt, h.loca_inj⟩, ?_⟩
  have hloca : t'.loca = t.loca := rfl
  have hidc : t'.idcList = t.idcList := rfl
  funext j
  by_cases hj : j = i
  · rw [hj, Function.update_self, content_moved hgt, content_moved (show BT_BUCKET_SIZE < (t'.idcList i).ind2 from hgt),
      hidc, hloca]
    exact load_deltaList _ _ _ _
  · rw [Function.update_of_ne hj]
    refine content_congr rfl (fun hgtj => ⟨rfl, fun k hk => store_of_outside ?_⟩) fun _ k _ => rfl
    have hrow : t.loca j ≠ t.loca i := fun he => hj (h.loca_inj j i hgtj hgt he)
    have hlei := h.ind2_le i
    have hlej := h.ind2_le j
    rw [length_deltaList_load]
    omega

theorem deltaBucket_inside {t : Table} (h : Rows t) {i : Nat} (hle : (t.idcList i).ind2 ≤ BT_BUCKET_SIZE) :
    let t' := { t with
      BucketTable := store t.BucketTable (BT_BUCKET_SIZE * i)
        (deltaList (t.idcList i).ind1 (load t.BucketTable (BT_BUCKET_SIZE * i) (t.idcList i).ind2)) }
    Rows t' ∧ t'.content 32 = Function.update (t.content 32) i (deltaList (t.idcList i).ind1 (t.content 32 i)) := by
  intro t'
  have hidc : t'.idcList = t.idcList := rfl
  have hother : ∀ j ≠ i, ∀ k < BT_BUCKET_SIZE, t'.BucketTable (BT_BUCKET_SIZE * j + k) =
      t.BucketTable (BT_BUCKET_SIZE * j + k) := by
    intro j hj k hk
    apply store_of_outside
    rw [length_deltaList_load]
    unfold BT_BUCKET_SIZE at *
    omega
  have hloca : ∀ j ≠ i, t'.loca j = t.loca j := fun j hj => congrArg firstByte (hother j hj 0 (by decide))
  have hrows : RowsAt 32 t' := (rows_iff.mp h).frame (fun _ _ => rfl) (h.ind_le i) (h.ind2_le i) le_rfl
    (fun j hj _ => hloca j hj) fun hgt => absurd hgt (not_lt.mpr hle)
  refine ⟨rows_iff.mpr hrows, ?_⟩
  · funext j
    by_cases hj : j = i
    · rw [hj, Function.update_self, content_inside hle,
        content_inside (show (t'.idcList i).ind2 ≤ BT_BUCKET_SIZE from hle), hidc]
      exact load_deltaList _ _ _ _
    · rw [Function.update_of_ne hj]
      exact content_congr rfl (fun _ => ⟨hloca j hj, fun k _ => rfl⟩) fun hlej k hk => hother j hj k (hk.trans_le hlej)

/-- **`ODelta` rewrites one bucket** and keeps the rows apart. -/
theorem deltaBucket_spec {t : Table} (h : Rows t) (i : Nat) :
    Rows (deltaBucket 32 t i) ∧ (deltaBucket 32 t i).idcList = t.idcList ∧
      (deltaBucket 32 t i).content 32 = Function.update (t.content 32) i (deltaList (t.idcList i).ind1 (t.content 32 i)) := by
  unfold deltaBucket
  dsimp only
  rw [deltaBucket_store _ _ (h.ind_le i), deltaBucket_store _ _ (h.ind_le i)]
  split_ifs with hgt
  · obtain ⟨hrows, hcontent⟩ := deltaBucket_moved h hgt
    exact ⟨hrows, rfl, hcontent⟩
  · obtain ⟨hrows, hcontent⟩ := deltaBucket_inside h (not_lt.mp hgt)
    exact ⟨hrows, rfl, hcontent⟩

end FOSketch.Heavy
