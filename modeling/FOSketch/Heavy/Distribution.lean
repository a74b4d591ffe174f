import FOSketch.Heavy.Prepare
import FOSketch.Keyed.Scan
import FOSketch.Slots.Basic

/-!
# The distribution of the sizes

`OItemCountDist_DESC`, `OItemCountDist_ASC` and `OCountDist` walk an array in order and count the run they are in. Every
entry leaves a record: the last one of a run with its size and the length of the run, the others with `MAX_SIZE`. The
records are then sorted by size, so that those of the runs come first.

The sorters take the length as an `int`: from `2 ^ 31` entries on nothing is sorted.
-/

namespace FOSketch.Heavy

open Keyed Slots

/-- The loop on the sizes with the entry behind it. `differs x y` says that the run of `x` ends before `y`. -/
def runCounts (differs : U32 → U32 → Bool) : U32 → Bool → List U32 → List CDist
  | _, _, [] => []
  | curCount, cond, [x] => [⟨x, OMove 1 (curCount + 1) cond⟩]
  | curCount, cond, x :: y :: OrdArry =>
    let curCount := OMove 1 (curCount + 1) cond
    let cond := differs x y
    ⟨OMove x MAX_SIZE cond, curCount⟩ :: runCounts differs curCount cond (y :: OrdArry)

def OItemCountDist_ASC (OrdArry : List Item) : List CDist :=
  BitonicSorter.sort greater_CDist (runCounts (fun x y => decide (x < y)) 0 true (OrdArry.map Item.size)) OrdArry.length

def OCountDist (OrdArry : List U32) : List CDist :=
  BitonicSorter.sort greater_CDist (runCounts (fun x y => decide (x < y)) 0 true OrdArry) OrdArry.length

theorem countRuns_eq (curCount : U32) (cond : Bool) (OrdArry : List Item) :
    countRuns curCount cond OrdArry =
      runCounts (fun x y => decide (y < x)) curCount cond (OrdArry.map Item.size) := by
  induction OrdArry generalizing curCount cond with
  | nil => rfl
  | cons x l ih =>
    cases l with
    | nil => rfl
    | cons y l =>
      rw [countRuns, ih]
      rfl

/-! ## The runs -/

section Runs
variable {differs : U32 → U32 → Bool} {R : U32 → U32 → Prop}

theorem length_runCounts (differs : U32 → U32 → Bool) (curCount : U32) (cond : Bool) (l : List U32) :
    (runCounts differs curCount cond l).length = l.length := by
  induction l generalizing curCount cond with
  | nil => rfl
  | cons x l ih =>
    cases l with
    | nil => rfl
    | cons y l => rw [runCounts, List.length_cons, ih, @List.length_cons _ y l, List.length_cons, List.length_cons]

def carriedRun (curCount : U32) (cond : Bool) : Nat := if cond then 0 else curCount.val

theorem OMove_one_eq (curCount : U32) (cond : Bool) :
    OMove 1 (curCount + 1) cond = Fin.ofNat 4294967296 (1 + carriedRun curCount cond) := by
  cases cond with
  | true => rfl
  | false =>
    apply Fin.ext
    rw [OMove_false, Fin.val_add, Fin.val_ofNat, Nat.add_comm]
    rfl

def counted (c : CDist) : Bool := c.size != MAX_SIZE

/-- The record of the size `y` when the run of `x` has gone on for `run` entries before `l`. -/
def runRecord (l : List U32) (x : U32) (run : Nat) (y : U32) : CDist :=
  ⟨y, Fin.ofNat 4294967296 (l.count y + if y = x then run else 0)⟩

/-- An entry that the next one equals leaves its run to it. -/
theorem runRecord_succ (l : List U32) (x : U32) (run : Nat) (y : U32) :
    runRecord l x (run + 1) y = runRecord (x :: l) x run y := by
  unfold runRecord
  by_cases hy : y = x
  · rw [if_pos hy, if_pos hy, hy, List.count_cons_self, Nat.add_assoc, Nat.add_comm 1 run]
  · rw [if_neg hy, if_neg hy, List.count_cons_of_ne (Ne.symm hy)]

theorem runRecord_cons_self (l : List U32) (x : U32) (run : Nat) (y : U32) :
    runRecord l x (Fin.ofNat 4294967296 (1 + run)).val y = runRecord (x :: l) x run y := by
  rw [← runRecord_succ]
  unfold runRecord
  congr 1
  apply Fin.ext
  rw [Fin.val_ofNat, Fin.val_ofNat, Fin.val_ofNat, Nat.add_comm 1 run]
  split_ifs
  · exact Nat.add_mod_mod _ _ _
  · rfl

theorem runRecord_zero {x y : U32} (x' : U32) (hy : y ≠ x) {l : List U32} {run : Nat} :
    runRecord l x' 0 y = runRecord l x run y := by
  unfold runRecord
  rw [if_neg hy, ite_self]

theorem runRecord_cons_of_ne {x x' y : U32} (hy : y ≠ x) (l : List U32) (run : Nat) :
    runRecord l x' 0 y = runRecord (x :: l) x run y := by
  rw [← runRecord_succ, runRecord_zero x' hy]

theorem runRecord_head {x : U32} {l : List U32} (hx : x ∉ l) (run : Nat) :
    (⟨x, Fin.ofNat 4294967296 (1 + run)⟩ : CDist) = runRecord (x :: l) x run x := by
  unfold runRecord
  rw [if_pos rfl, List.count_cons_self, List.count_eq_zero.mpr hx, Nat.zero_add]

/-- **The loop** leaves one record for every size but `MAX_SIZE`, with the length of its run. -/
theorem occupants_runCounts_cons (hanti : ∀ x y, R x y → R y x → x = y)
    (hdiff : ∀ x y, R x y → (differs x y = true ↔ x ≠ y)) {x : U32} {l : List U32} (hl : (x :: l).Pairwise R)
    (curCount : U32) (cond : Bool) :
    occupants counted (runCounts differs curCount cond (x :: l)) =
      ((x :: l).dedup.filter (· != MAX_SIZE)).map (runRecord (x :: l) x (carriedRun curCount cond)) := by
  induction l generalizing x curCount cond with
  | nil =>
    rw [runCounts, OMove_one_eq, runRecord_head List.not_mem_nil, List.dedup_cons_of_notMem List.not_mem_nil,
      List.dedup_nil, occupants_cons, List.filter_cons]
    show (if x != MAX_SIZE then _ else _) = _
    split_ifs <;> rfl
  | cons y l ih =>
    obtain ⟨hx, hl'⟩ := List.pairwise_cons.mp hl
    have hxy := hdiff x y (hx y List.mem_cons_self)
    rw [runCounts, OMove_one_eq]
    by_cases heq : x = y
    · subst heq
      have hcond : differs x x = false := Bool.eq_false_iff.mpr fun h => hxy.mp h rfl
      rw [hcond, OMove_false, occupants_cons_hole (by rfl), ih hl', List.dedup_cons_of_mem List.mem_cons_self]
      exact List.map_congr_left fun z _ => runRecord_cons_self _ _ _ _
    · have hcond : differs x y = true := hxy.mpr heq
      have hnot : x ∉ y :: l := by
        intro hmem
        rcases List.mem_cons.mp hmem with h | h
        · exact heq h
        · exact heq (hanti x y (hx y List.mem_cons_self) ((List.pairwise_cons.mp hl').1 x h))
      have hrest : ((y :: l).dedup.filter (· != MAX_SIZE)).map (runRecord (y :: l) y (carriedRun (Fin.ofNat 4294967296
          (1 + carriedRun curCount cond)) true)) =
            ((y :: l).dedup.filter (· != MAX_SIZE)).map (runRecord (x :: y :: l) x (carriedRun curCount cond)) := by
        apply List.map_congr_left
        intro z hz
        have hmem := List.mem_dedup.mp (List.mem_filter.mp hz).1
        exact runRecord_cons_of_ne (ne_of_mem_of_not_mem hmem hnot) _ _
      rw [hcond, OMove_true, occupants_cons, ih hl', hrest, List.dedup_cons_of_notMem hnot, List.filter_cons,
        runRecord_head hnot]
      show (if x != MAX_SIZE then _ else _) = _
      split_ifs <;> rfl

def sizeRecord (l : List U32) (x : U32) : CDist := ⟨x, Fin.ofNat 4294967296 (l.count x)⟩

theorem occupants_runCounts (hanti : ∀ x y, R x y → R y x → x = y)
    (hdiff : ∀ x y, R x y → (differs x y = true ↔ x ≠ y)) {l : List U32} (hl : l.Pairwise R) :
    occupants counted (runCounts differs 0 true l) = (l.dedup.filter (· != MAX_SIZE)).map (sizeRecord l) := by
  cases l with
  | nil => rfl
  | cons x l =>
    rw [occupants_runCounts_cons hanti hdiff hl]
    refine List.map_congr_left fun y _ => ?_
    rw [runRecord, carriedRun, if_pos rfl, ite_self]
    rfl

end Runs

/-! ## The sorted records -/

/-- The records `r` are the distribution of the sizes `l`: the distinct sizes with their multiplicities in increasing order,
and `MAX_SIZE` behind them. -/
structure Distribution (l : List U32) (r : List CDist) : Prop where
  length_eq : r.length = l.length
  increasing : (r.take l.dedup.length).Pairwise fun c c' => c.size < c'.size
  mem_iff : ∀ c, c ∈ r.take l.dedup.length ↔ c.size ∈ l ∧ c.count.val = l.count c.size
  rest : ∀ c ∈ r.drop l.dedup.length, c.size = MAX_SIZE
  total : ((r.take l.dedup.length).map fun c => c.count.val).sum = l.length

theorem MAX_SIZE_eq_top : MAX_SIZE = ⊤ := rfl

theorem distribution_of_perm {l : List U32} {r : List CDist} (hlen : r.length = l.length) (hn : l.length < 4294967296)
    (hsorted : r.Pairwise fun c c' => c.size ≤ c'.size) (hperm : (occupants counted r).Perm (l.dedup.map (sizeRecord l))) :
    Distribution l r := by
  have hcount : ∀ x, (sizeRecord l x).count.val = l.count x := fun x =>
    Nat.mod_eq_of_lt (List.count_le_length.trans_lt hn)
  have hrest : ∀ c ∈ r.drop l.dedup.length, c.size = MAX_SIZE := by
    refine eq_top_of_mem_drop hsorted (le_of_eq ?_)
    rw [← List.length_map (sizeRecord l), ← hperm.length_eq, occupants, ← List.countP_eq_length_filter]
    exact List.countP_congr fun c _ => by simp [counted, MAX_SIZE_eq_top]
  have hholes : HolesFrom counted l.dedup.length r := by
    intro c hc
    rw [counted, hrest c hc]
    rfl
  have htake : (r.take l.dedup.length).Perm (l.dedup.map (sizeRecord l)) := by
    have hlow := hholes.occupants_take ▸ hperm
    have hle : l.dedup.length ≤ r.length := hlen ▸ (List.dedup_sublist l).length_le
    have hfull : occupants counted (r.take l.dedup.length) = r.take l.dedup.length := by
      apply (List.filter_sublist).eq_of_length_le
      change _ ≤ (occupants counted (r.take l.dedup.length)).length
      rw [hlow.length_eq, List.length_map, List.length_take]
      exact Nat.min_le_left _ _
    rwa [hfull] at hlow
  have hnodup : ((r.take l.dedup.length).map CDist.size).Nodup := by
    rw [(htake.map CDist.size).nodup_iff, List.map_map]
    exact (List.map_id l.dedup).symm ▸ List.nodup_dedup l
  refine ⟨hlen, ?_, ?_, hrest, ?_⟩
  · have hle := hsorted.sublist (List.take_sublist l.dedup.length r)
    exact (hle.and (List.pairwise_map.mp hnodup)).imp fun h => lt_of_le_of_ne h.1 h.2
  · intro c
    rw [htake.mem_iff, List.mem_map]
    constructor
    · rintro ⟨x, hx, rfl⟩
      exact ⟨List.mem_dedup.mp hx, hcount x⟩
    · rintro ⟨hmem, hc⟩
      refine ⟨c.size, List.mem_dedup.mpr hmem, ?_⟩
      obtain ⟨size, count⟩ := c
      exact congrArg (CDist.mk size) (Fin.ext ((hcount size).trans hc.symm))
  · rw [(htake.map fun c => c.count.val).sum_eq, List.map_map]
    exact (congrArg List.sum (List.map_congr_left fun x _ => hcount x)).trans (List.sum_map_count_dedup_eq_length l)

theorem greater_CDist_compares : Network.Compares greater_CDist CDist.size := fun _ _ => rfl

structure Sizes (l : List U32) : Prop where
  pos : 1 ≤ l.length
  le : l.length ≤ 2 ^ 30
  lt : ∀ x ∈ l, x < MAX_SIZE

theorem distribution_of_sorted {differs : U32 → U32 → Bool} {R : U32 → U32 → Prop}
    (hanti : ∀ x y, R x y → R y x → x = y) (hdiff : ∀ x y, R x y → (differs x y = true ↔ x ≠ y)) {l : List U32}
    (hl : l.Pairwise R) (h : Sizes l) {r : List CDist} (hperm : r.Perm (runCounts differs 0 true l))
    (hsorted : r.Pairwise fun c c' => c.size ≤ c'.size) : Distribution l r := by
  have hle := h.le
  have hruns : (occupants counted r).Perm (occupants counted (runCounts differs 0 true l)) := occupants_perm hperm
  have hall : l.dedup.filter (· != MAX_SIZE) = l.dedup := by
    apply List.filter_eq_self.mpr
    exact fun x hx => bne_iff_ne.mpr (h.lt x (List.mem_dedup.mp hx)).ne
  rw [occupants_runCounts hanti hdiff hl, hall] at hruns
  exact distribution_of_perm (hperm.length_eq.trans (length_runCounts differs 0 true l)) (by omega) hsorted hruns

theorem distribution_bitonic {differs : U32 → U32 → Bool} {R : U32 → U32 → Prop}
    (hanti : ∀ x y, R x y → R y x → x = y) (hdiff : ∀ x y, R x y → (differs x y = true ↔ x ≠ y)) {l : List U32}
    (hl : l.Pairwise R) (h : Sizes l) :
    Distribution l (BitonicSorter.sort greater_CDist (runCounts differs 0 true l) l.length) := by
  have hlen := length_runCounts differs 0 true l
  have hsorted := BitonicSorter.sort_pairwise greater_CDist_compares (hlen.trans_le h.le)
  rw [hlen] at hsorted
  exact distribution_of_sorted hanti hdiff hl h (BitonicSorter.sort_perm _ _ _) hsorted

theorem distribution_desc {l : List Item} (hl : (l.map Item.size).Pairwise fun x y => y ≤ x)
    (h : Sizes (l.map Item.size)) : Distribution (l.map Item.size) (OItemCountDist_DESC l) := by
  have hanti : ∀ x y : U32, y ≤ x → x ≤ y → x = y := fun x y hyx hxy => le_antisymm hxy hyx
  have hdiff : ∀ x y : U32, y ≤ x → (decide (y < x) = true ↔ x ≠ y) := fun x y hyx => by
    rw [decide_eq_true_iff, hyx.lt_iff_ne, ne_comm]
  have hlen : l.length = (l.map Item.size).length := (List.length_map _).symm
  rw [OItemCountDist_DESC, countRuns_eq, hlen]
  split_ifs with h2
  · obtain ⟨e, he⟩ := testPo2_iff.mp h2
    have hruns := length_runCounts (fun x y => decide (y < x)) 0 true (l.map Item.size)
    have hsorted := OddEvenMergeSorter.sort_pairwise greater_CDist_compares (hruns.trans he) (hruns.trans_le h.le)
    rw [hruns] at hsorted
    exact distribution_of_sorted hanti hdiff hl h (OddEvenMergeSorter.sort_perm _ _ _) hsorted
  · exact distribution_bitonic hanti hdiff hl h

theorem distribution_asc {l : List U32} (hl : l.Pairwise (· ≤ ·)) (h : Sizes l) : Distribution l (OCountDist l) :=
  distribution_bitonic (fun _ _ => le_antisymm) (fun _ _ hxy => by rw [decide_eq_true_iff, hxy.lt_iff_ne]) hl h

/-- **The three routines** leave the distribution of the sizes of an array in order. -/
theorem countDist_spec (l : List Item) (a : List U32) (hl : Sizes (l.map Item.size)) (ha : Sizes a) :
    ((l.map Item.size).Pairwise (fun x y => y ≤ x) → Distribution (l.map Item.size) (OItemCountDist_DESC l)) ∧
      ((l.map Item.size).Pairwise (· ≤ ·) → Distribution (l.map Item.size) (OItemCountDist_ASC l)) ∧
      (a.Pairwise (· ≤ ·) → Distribution a (OCountDist a)) := by
  refine ⟨fun hdesc => distribution_desc hdesc hl, fun hasc => ?_, fun hasc => distribution_asc hasc ha⟩
  have h := distribution_asc hasc hl
  rwa [OCountDist, List.length_map] at h

/-- Two runs downwards, one upwards, and two upwards. -/
theorem countDist_spec_three :
    Distribution [5, 5, 2] (OItemCountDist_DESC [⟨0, 5⟩, ⟨1, 5⟩, ⟨2, 2⟩]) ∧
      Distribution [4, 4] (OItemCountDist_ASC [⟨0, 4⟩, ⟨1, 4⟩]) ∧ Distribution [2, 5, 5] (OCountDist [2, 5, 5]) := by
  have hsizes : Sizes [2, 5, 5] := ⟨by decide, by decide, by simp [MAX_SIZE]⟩
  have hdown := countDist_spec [⟨0, 5⟩, ⟨1, 5⟩, ⟨2, 2⟩] [2, 5, 5] ⟨by decide, by decide, by simp [MAX_SIZE]⟩ hsizes
  have hup := countDist_spec [⟨0, 4⟩, ⟨1, 4⟩] [2, 5, 5] ⟨by decide, by decide, by simp [MAX_SIZE]⟩ hsizes
  exact ⟨hdown.1 (by decide), hup.2.1 (by decide), hdown.2.2 (by decide)⟩

/-- One size 2 and sizes 1 behind it, one more than an `int` can count. No record moves, and the second is that of no run. -/
theorem countDist_int_overflow :
    let l : List Item := ⟨0, 2⟩ :: List.replicate 2147483647 ⟨0, 1⟩
    l.length = 2 ^ 31 ∧ (l.map Item.size).Pairwise (fun x y => y ≤ x) ∧ (∀ x ∈ l, x.size < MAX_SIZE) ∧
      ¬Distribution (l.map Item.size) (OItemCountDist_DESC l) := by
  intro l
  have hlen : l.length = 2 ^ 31 := by
    rw [List.length_cons, List.length_replicate]
    norm_num
  have hsizes : l.map Item.size = 2 :: List.replicate 2147483647 1 := by rw [List.map_cons, List.map_replicate]
  refine ⟨hlen, ?_, ?_, ?_⟩
  · rw [hsizes, List.pairwise_cons]
    refine ⟨fun y hy => ?_, List.pairwise_replicate.mpr (Or.inr le_rfl)⟩
    rw [List.eq_of_mem_replicate hy]
    decide
  · intro x hx
    rcases List.mem_cons.mp hx with rfl | hx
    · decide
    · rw [List.eq_of_mem_replicate hx]
      decide
  · intro h
    have hdedup : (l.map Item.size).dedup.length = 2 := by
      have hnot : (2 : U32) ∉ List.replicate 2147483647 1 := fun hmem => absurd (List.eq_of_mem_replicate hmem) (by decide)
      rw [hsizes, List.dedup_cons_of_notMem hnot, List.replicate_dedup (by decide)]
      rfl
    obtain ⟨t, ht⟩ : ∃ t, OItemCountDist_DESC l = ⟨2, 1⟩ :: ⟨MAX_SIZE, 1⟩ :: t := by
      have hruns : ∃ t, countRuns 0 true l = ⟨2, 1⟩ :: ⟨MAX_SIZE, 1⟩ :: t := ⟨_, by
        rw [show l = ⟨0, 2⟩ :: ⟨0, 1⟩ :: ⟨0, 1⟩ :: List.replicate 2147483645 ⟨0, 1⟩ from rfl, countRuns, countRuns]
        rfl⟩
      obtain ⟨t, ht⟩ := hruns
      refine ⟨t, ?_⟩
      rw [OItemCountDist_DESC, hlen, if_pos (testPo2_iff.mpr ⟨31, rfl⟩), ht]
      exact OddEvenMergeSorter.sort_of_large _ _ le_rfl
    have hmem := (h.mem_iff ⟨MAX_SIZE, 1⟩).mp (by rw [ht, hdedup]; exact List.mem_cons_of_mem _ List.mem_cons_self)
    rw [hsizes] at hmem
    rcases List.mem_cons.mp hmem.1 with h2 | h1
    · exact absurd h2 (by decide)
    · exact absurd (List.eq_of_mem_replicate h1) (by decide)

end FOSketch.Heavy
