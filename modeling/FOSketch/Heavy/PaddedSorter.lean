import FOSketch.Heavy.Prepare
import FOSketch.Keyed.Scan
import FOSketch.Network.Hills

/-!
# `BitonicSorter_CDist`

The sorter of `CDist` records pads the array to a power of two with records of all ones, sorts it, and copies as many
records back as there were. What it copies is in order. A record whose size is `MAX_SIZE` ties with the padding, and the
network carries some of these behind the records copied back: `displaced` says which, by the sizes alone. The array keeps
its records exactly if each of the displaced ones looks like the padding (`sort_iff`).
-/

namespace FOSketch.BitonicSorter_CDist

open Heavy Network

variable {α β : Type*}

/-- `bitonicMerge(lo, n, dir)`; the first argument bounds the depth of the recursion. -/
def bitonicMerge (greater : α → α → Bool) : Nat → List α → Nat → Nat → Bool → List α
  | 0, l, _, _, _ => l
  | f + 1, l, lo, n, dir =>
    if 1 < n then
      let m := n / 2
      let l := (List.range' lo m).foldl (fun l i => BitonicSorter.compare greater l i (i + m) dir) l
      let l := bitonicMerge greater f l lo m dir
      bitonicMerge greater f l (lo + m) m dir
    else l

def bitonicSort (greater : α → α → Bool) : Nat → List α → Nat → Nat → Bool → List α
  | 0, l, _, _, _ => l
  | f + 1, l, lo, n, dir =>
    if 1 < n then
      let m := n / 2
      let l := bitonicSort greater f l lo m true
      let l := bitonicSort greater f l (lo + m) m false
      bitonicMerge greater n l lo n dir
    else l

/-- What `memset` writes: a record of all ones. -/
def padding : CDist := ⟨MAX_SIZE, 4294967295⟩

/-- `1 << level` for the least `level` that makes room. -/
def reSize (size : Nat) : Nat := 2 ^ Nat.clog 2 size

/-- `sort(data, size)`. From level 31 on `1 << level` is no positive `int`: `malloc` has no memory of that size, and the
assertion fails. -/
def sort (data : List CDist) : Option (List CDist) :=
  let size := data.length
  if Nat.clog 2 size < 31 then
    let pData := data ++ List.replicate (reSize size - size) padding
    some ((bitonicSort greater_CDist (reSize size) pData 0 (reSize size) true).take size)
  else none

/-! ## The network -/

/-- The merger of the class is the one of `BitonicSorter`. -/
theorem bitonicMerge_eq (greater : α → α → Bool) {e f : Nat} (hf : 2 ^ e ≤ f) (he : 2 ^ e ≤ 2 ^ 30) (l : List α) (lo : Nat)
    (dir : Bool) : bitonicMerge greater f l lo (2 ^ e) dir =
      runList greater ((mergeNet BitonicSorter.half dir f (2 ^ e)).map (Comparator.move (· + lo))) l := by
  induction e generalizing f l lo with
  | zero =>
    obtain ⟨f, rfl⟩ : ∃ g, f = g + 1 := ⟨f - 1, by omega⟩
    rfl
  | succ e ih =>
    have h2 : 2 ^ (e + 1) = 2 * 2 ^ e := pow_succ' 2 e
    have hpos := Nat.two_pow_pos e
    have hdiv : 2 ^ (e + 1) / 2 = 2 ^ e := by omega
    have hsub : 2 ^ (e + 1) - 2 ^ e = 2 ^ e := by omega
    obtain ⟨f, rfl⟩ : ∃ g, f = g + 1 := ⟨f - 1, by omega⟩
    unfold bitonicMerge mergeNet
    rw [if_pos (by omega), if_pos (by omega), BitonicSorter.half_halves.split_two_pow he, hdiv, hsub]
    dsimp only
    rw [ih (by omega) (by omega), ih (by omega) (by omega), BitonicSorter.foldl_compare, List.map_append, List.map_append,
      runList_append, runList_append, map_move_move]
    congr 4
    funext k
    rw [Function.comp_apply]
    omega

/-- The sorter is the one that sorts hills. -/
theorem bitonicSort_eq (greater : α → α → Bool) {e f : Nat} (hf : 2 ^ e ≤ f) (he : 2 ^ e ≤ 2 ^ 30) (l : List α) (lo : Nat)
    (dir : Bool) : bitonicSort greater f l lo (2 ^ e) dir =
      runList greater ((hillNet BitonicSorter.half dir e).map (Comparator.move (· + lo))) l := by
  induction e generalizing f l lo dir with
  | zero =>
    obtain ⟨f, rfl⟩ : ∃ g, f = g + 1 := ⟨f - 1, by omega⟩
    rfl
  | succ e ih =>
    have h2 : 2 ^ (e + 1) = 2 * 2 ^ e := pow_succ' 2 e
    have hpos := Nat.two_pow_pos e
    have hdiv : 2 ^ (e + 1) / 2 = 2 ^ e := by omega
    obtain ⟨f, rfl⟩ : ∃ g, f = g + 1 := ⟨f - 1, by omega⟩
    unfold bitonicSort hillNet
    rw [if_pos (by omega), hdiv]
    dsimp only
    rw [ih (by omega) (by omega), ih (by omega) (by omega), bitonicMerge_eq greater le_rfl he, List.map_append,
      List.map_append, runList_append, runList_append, map_move_move]
    congr 4
    funext k
    rw [Function.comp_apply]
    omega

theorem sortPadded_eq (greater : α → α → Bool) {e : Nat} (he : e ≤ 30) (l : List α) :
    bitonicSort greater (2 ^ e) l 0 (2 ^ e) true = runList greater (hillNet BitonicSorter.half true e) l := by
  rw [bitonicSort_eq greater le_rfl (Nat.pow_le_pow_right (by decide) he)]
  exact congrArg (runList greater · l) (List.map_id _)

/-- **The padded array** is put in order. -/
theorem sortPadded_pairwise [LinearOrder β] {greater : α → α → Bool} {key : α → β} (hg : Compares greater key) {e : Nat}
    (he : e ≤ 30) {l : List α} (hl : l.length = 2 ^ e) :
    (bitonicSort greater (2 ^ e) l 0 (2 ^ e) true).Pairwise fun x y => key x ≤ key y := by
  have hpow : 2 ^ e ≤ 2 ^ 30 := Nat.pow_le_pow_right (by decide) he
  rcases l with _ | ⟨d, l⟩
  · exact absurd hl.symm (Nat.two_pow_pos e).ne'
  have hbelow : Below (2 ^ e) (hillNet BitonicSorter.half true e) := hillNet_below BitonicSorter.half_halves true hpow
  have h := pairwise_take_runList hg d hbelow hl.ge
  rw [sortPadded_eq greater he, ← List.take_of_length_le (l := runList _ _ _) (by rw [length_runList, hl])]
  exact h.mpr (hillNet_sorts BitonicSorter.half_halves hpow _).1

/-! ## Which records are displaced -/

def greaterSize (x y : U32 × Nat) : Bool := decide (y.1 < x.1)

theorem greaterSize_compares : Compares greaterSize Prod.fst := fun _ _ => rfl

/-- The sizes of an array with their positions, padded. -/
def positions (sizes : List U32) : List (U32 × Nat) :=
  sizes.zipIdx ++ (List.range' sizes.length (reSize sizes.length - sizes.length)).map fun i => (MAX_SIZE, i)

/-- Where the network puts them. -/
def sortedPositions (sizes : List U32) : List (U32 × Nat) :=
  bitonicSort greaterSize (reSize sizes.length) (positions sizes) 0 (reSize sizes.length) true

/-- The positions of the records that are not copied back. -/
def displaced (sizes : List U32) : List Nat :=
  (((sortedPositions sizes).drop sizes.length).map Prod.snd).filter fun i => decide (i < sizes.length)

theorem le_reSize (size : Nat) : size ≤ reSize size := Nat.le_pow_clog (by decide) size

theorem clog_lt_iff {size : Nat} : Nat.clog 2 size < 31 ↔ size ≤ 2 ^ 30 := by
  rw [Nat.lt_succ_iff]
  exact Nat.clog_le_iff_le_pow (by decide)

theorem length_positions (sizes : List U32) : (positions sizes).length = reSize sizes.length := by
  have := le_reSize sizes.length
  rw [positions, List.length_append, List.length_zipIdx, List.length_map, List.length_range']
  omega

theorem sortedPositions_perm {sizes : List U32} (hn : sizes.length ≤ 2 ^ 30) :
    (sortedPositions sizes).Perm (positions sizes) := by
  rw [sortedPositions, reSize, sortPadded_eq greaterSize (Nat.lt_succ_iff.mp (clog_lt_iff.mpr hn))]
  exact runList_perm _ _ _

theorem sortedPositions_pairwise {sizes : List U32} (hn : sizes.length ≤ 2 ^ 30) :
    (sortedPositions sizes).Pairwise fun x y => x.1 ≤ y.1 :=
  sortPadded_pairwise greaterSize_compares (Nat.lt_succ_iff.mp (clog_lt_iff.mpr hn)) (length_positions sizes)

/-- What is not copied back has the size of the padding. -/
theorem drop_sortedPositions {sizes : List U32} (hn : sizes.length ≤ 2 ^ 30) :
    ∀ x ∈ (sortedPositions sizes).drop sizes.length, x.1 = MAX_SIZE := by
  have hcount : (sortedPositions sizes).countP (fun x => decide (x.1 ≠ ⊤)) ≤ sizes.length := by
    rw [(sortedPositions_perm hn).countP_eq, positions, List.countP_append]
    have hpads : ((List.range' sizes.length (reSize sizes.length - sizes.length)).map fun i => (MAX_SIZE, i)).countP
        (fun x => decide (x.1 ≠ ⊤)) = 0 := by
      rw [List.countP_eq_zero]
      intro x hx
      obtain ⟨i, -, rfl⟩ := List.mem_map.mp hx
      simp [show MAX_SIZE = ⊤ from rfl]
    have hreal : sizes.zipIdx.countP (fun x => decide (x.1 ≠ ⊤)) ≤ sizes.zipIdx.length := List.countP_le_length
    rw [List.length_zipIdx] at hreal
    omega
  exact Keyed.eq_top_of_mem_drop (sortedPositions_pairwise hn) hcount

theorem mem_positions {sizes : List U32} {x : U32 × Nat} (hx : x ∈ positions sizes) (hlt : x.2 < sizes.length) :
    sizes[x.2]? = some x.1 := by
  rcases List.mem_append.mp hx with hx | hx
  · exact List.mem_zipIdx_iff_getElem?.mp hx
  · obtain ⟨i, hi, rfl⟩ := List.mem_map.mp hx
    exact absurd hlt (not_lt.mpr (List.mem_range'_1.mp hi).1)

/-- A displaced record has the size of the padding. -/
theorem size_of_mem_displaced {sizes : List U32} (hn : sizes.length ≤ 2 ^ 30) {i : Nat} (hi : i ∈ displaced sizes) :
    sizes[i]? = some MAX_SIZE := by
  obtain ⟨hi, hlt⟩ := List.mem_filter.mp hi
  obtain ⟨x, hx, rfl⟩ := List.mem_map.mp hi
  rw [← drop_sortedPositions hn x hx]
  exact mem_positions ((sortedPositions_perm hn).mem_iff.mp (List.mem_of_mem_drop hx)) (of_decide_eq_true hlt)

/-- With a power of two of records there is no padding. -/
theorem displaced_of_two_pow {sizes : List U32} (hn : sizes.length ≤ 2 ^ 30) {e : Nat} (he : sizes.length = 2 ^ e) :
    displaced sizes = [] := by
  have hsize : reSize sizes.length = sizes.length := by rw [he, reSize, Nat.clog_pow 2 e (by decide)]
  have hlen : (sortedPositions sizes).length = sizes.length := by
    rw [(sortedPositions_perm hn).length_eq, length_positions, hsize]
  rw [displaced, List.drop_of_length_le hlen.le]
  rfl

theorem tied_positions (n : Nat) : Tied greaterSize (seq (MAX_SIZE, 0) (positions (List.replicate n MAX_SIZE))) := by
  have hall : ∀ x ∈ positions (List.replicate n MAX_SIZE), x.1 = MAX_SIZE := by
    intro x hx
    rcases List.mem_append.mp hx with hx | hx
    · exact (List.mem_replicate.mp (List.fst_mem_of_mem_zipIdx hx)).2
    · obtain ⟨i, -, rfl⟩ := List.mem_map.mp hx
      rfl
  have hseq : ∀ k, (seq (MAX_SIZE, 0) (positions (List.replicate n MAX_SIZE)) k).1 = MAX_SIZE := by
    intro k
    rw [seq, List.getD_eq_getElem?_getD]
    cases hget : (positions (List.replicate n MAX_SIZE))[k]? with
    | none => rfl
    | some x => exact hall x (List.mem_of_getElem? hget)
  intro i j
  rw [greaterSize, hseq, hseq]
  exact decide_eq_false (lt_irrefl _)

theorem reSize_between {n e : Nat} (hlow : 2 ^ e < n) (hhigh : n < 2 ^ (e + 1)) : reSize n = 2 ^ (e + 1) := by
  have hclog : Nat.clog 2 n = e + 1 := by
    apply le_antisymm
    · exact Nat.clog_le_of_le_pow hhigh.le
    · exact (Nat.lt_clog_iff_pow_lt (by decide)).mpr hlow
  rw [reSize, hclog]

/-- Among records of size `MAX_SIZE` alone, the first of the upper half of the padded array comes last. -/
theorem last_sortedPositions_tied {n e : Nat} (he : e + 1 ≤ 30) (hlow : 2 ^ e < n) (hhigh : n < 2 ^ (e + 1)) :
    seq (MAX_SIZE, 0) (sortedPositions (List.replicate n MAX_SIZE)) (2 ^ (e + 1) - 1) = (MAX_SIZE, 2 ^ e) := by
  have hpow : 2 ^ (e + 1) ≤ 2 ^ 30 := Nat.pow_le_pow_right (by decide) he
  have hsize : reSize (List.replicate n MAX_SIZE).length = 2 ^ (e + 1) := by
    rw [List.length_replicate, reSize_between hlow hhigh]
  have hbelow : Below (positions (List.replicate n MAX_SIZE)).length (hillNet BitonicSorter.half true (e + 1)) := by
    rw [length_positions, hsize]
    exact hillNet_below BitonicSorter.half_halves true hpow
  have hreal : 2 ^ e < (List.replicate n MAX_SIZE).zipIdx.length := by
    rw [List.length_zipIdx, List.length_replicate]
    exact hlow
  rw [sortedPositions, hsize, sortPadded_eq greaterSize he, seq_runList _ _ hbelow,
    hillNet_tied BitonicSorter.half_halves hpow (tied_positions n), positions, seq_append_left _ _ hreal,
    seq_of_lt _ hreal]
  simp

theorem displaced_tied {n e : Nat} (hn : n ≤ 2 ^ 30) (hlow : 2 ^ e < n) (hhigh : n < 2 ^ (e + 1)) :
    2 ^ e ∈ displaced (List.replicate n MAX_SIZE) := by
  have he : e + 1 ≤ 30 := by
    by_contra hgt
    have hpow : 2 ^ 30 ≤ 2 ^ e := Nat.pow_le_pow_right (by decide) (by omega)
    omega
  have hlength : (List.replicate n MAX_SIZE).length = n := List.length_replicate
  have hlt : 2 ^ (e + 1) - 1 < (sortedPositions (List.replicate n MAX_SIZE)).length := by
    rw [(sortedPositions_perm (hlength.trans_le hn)).length_eq, length_positions, hlength, reSize_between hlow hhigh]
    have := Nat.two_pow_pos (e + 1)
    omega
  have hlast := last_sortedPositions_tied he hlow hhigh
  rw [seq_of_lt _ hlt] at hlast
  have hmem : (MAX_SIZE, 2 ^ e) ∈ (sortedPositions (List.replicate n MAX_SIZE)).drop n := by
    rw [← hlast, List.mem_drop_iff_getElem]
    exact ⟨2 ^ (e + 1) - 1 - n, by omega, by congr 1; omega⟩
  apply List.mem_filter.mpr
  rw [hlength]
  exact ⟨List.mem_map.mpr ⟨_, hmem, rfl⟩, decide_eq_true hlow⟩

/-! ## What is copied back -/

def ofPosition (data : List CDist) (p : U32 × Nat) : CDist := ⟨p.1, data[p.2]?.elim padding.count CDist.count⟩

theorem map_ofPosition (data : List CDist) : (positions (data.map CDist.size)).map (ofPosition data) =
    data ++ List.replicate (reSize data.length - data.length) padding := by
  rw [positions, List.map_append, List.length_map]
  congr 1
  · apply List.ext_getElem?
    intro i
    rw [List.getElem?_map, List.getElem?_zipIdx, List.getElem?_map]
    cases hget : data[i]? with
    | none => rfl
    | some c =>
      simp only [Option.map_some, Nat.zero_add, ofPosition, hget, Option.elim]
  · rw [List.map_map, List.eq_replicate_iff]
    constructor
    · rw [List.length_map, List.length_range']
    · intro c hc
      obtain ⟨i, hi, rfl⟩ := List.mem_map.mp hc
      have hnone : data[i]? = none := List.getElem?_eq_none (List.mem_range'_1.mp hi).1
      simp only [Function.comp_apply, ofPosition, hnone, Option.elim]
      rfl

/-- The padded array in order is that of the positions. -/
theorem sort_eq {data : List CDist} (hn : data.length ≤ 2 ^ 30) :
    sort data = some (((sortedPositions (data.map CDist.size)).take data.length).map (ofPosition data)) := by
  have hlevel := clog_lt_iff.mpr hn
  have hgreater : ∀ x y, greaterSize x y = greater_CDist (ofPosition data x) (ofPosition data y) := fun _ _ => rfl
  unfold sort
  dsimp only
  rw [if_pos hlevel, ← map_ofPosition, sortedPositions, List.length_map, List.map_take, reSize,
    sortPadded_eq _ (Nat.lt_succ_iff.mp hlevel), sortPadded_eq _ (Nat.lt_succ_iff.mp hlevel), runList_map _ _ _ hgreater]

def Sorts (data : List CDist) (r : Option (List CDist)) : Prop :=
  ∃ out, r = some out ∧ out.Perm data ∧ out.Pairwise fun x y => x.size ≤ y.size

/-- Nothing is lost exactly if what is not copied back is the padding. -/
theorem perm_iff_drop {data : List CDist} (hn : data.length ≤ 2 ^ 30) :
    (((sortedPositions (data.map CDist.size)).take data.length).map (ofPosition data)).Perm data ↔
      ∀ x ∈ (sortedPositions (data.map CDist.size)).drop data.length, ofPosition data x = padding := by
  have hlen : (data.map CDist.size).length ≤ 2 ^ 30 := by rwa [List.length_map]
  have hperm := (sortedPositions_perm hlen).map (ofPosition data)
  rw [map_ofPosition, ← List.take_append_drop data.length (sortedPositions _), List.map_append] at hperm
  have hrest : (((sortedPositions (data.map CDist.size)).drop data.length).map (ofPosition data)).length =
      reSize data.length - data.length := by
    rw [List.length_map, List.length_drop, (sortedPositions_perm hlen).length_eq, length_positions, List.length_map]
  constructor
  · intro hkept x hx
    have hsame := (hkept.append_right _).symm.trans hperm
    rw [List.perm_append_left_iff, List.perm_replicate] at hsame
    exact List.eq_of_mem_replicate (hsame ▸ List.mem_map_of_mem hx)
  · intro hall
    have hsame : ((sortedPositions (data.map CDist.size)).drop data.length).map (ofPosition data) =
        List.replicate (reSize data.length - data.length) padding := by
      apply List.eq_replicate_iff.mpr
      refine ⟨hrest, fun c hc => ?_⟩
      obtain ⟨x, hx, rfl⟩ := List.mem_map.mp hc
      exact hall x hx
    rwa [hsame, List.perm_append_right_iff] at hperm

/-- What is copied back is in order anyway. -/
theorem sorts_iff_drop {data : List CDist} (hn : data.length ≤ 2 ^ 30) : Sorts data (sort data) ↔
    ∀ x ∈ (sortedPositions (data.map CDist.size)).drop data.length, ofPosition data x = padding := by
  have hlen : (data.map CDist.size).length ≤ 2 ^ 30 := by rwa [List.length_map]
  have hordered : (((sortedPositions (data.map CDist.size)).take data.length).map (ofPosition data)).Pairwise
      fun x y => x.size ≤ y.size := by
    rw [List.pairwise_map]
    exact (sortedPositions_pairwise hlen).sublist (List.take_sublist _ _)
  rw [← perm_iff_drop hn, sort_eq hn]
  constructor
  · rintro ⟨out, hout, hperm, -⟩
    rwa [Option.some.inj hout]
  · exact fun hperm => ⟨_, rfl, hperm, hordered⟩

theorem ofPosition_eq_padding {data : List CDist} {x : U32 × Nat} (hsize : x.1 = MAX_SIZE) :
    ofPosition data x = padding ↔ ∀ c ∈ data[x.2]?, c.count = padding.count := by
  unfold ofPosition
  rw [hsize]
  cases data[x.2]? with
  | none => exact iff_of_true rfl (by simp)
  | some c =>
    constructor
    · intro h d hd
      have hcount := congrArg CDist.count h
      rwa [← Option.mem_some.mp hd]
    · exact fun h => congrArg (CDist.mk MAX_SIZE) (h c rfl)

/-- **Up to `2 ^ 30` records** the array is sorted exactly if the displaced records look like the padding. -/
theorem sorts_iff_displaced {data : List CDist} (hn : data.length ≤ 2 ^ 30) :
    Sorts data (sort data) ↔ ∀ i ∈ displaced (data.map CDist.size), ∀ c ∈ data[i]?, c.count = padding.count := by
  have hdrop := @drop_sortedPositions (data.map CDist.size) (by rwa [List.length_map])
  rw [List.length_map] at hdrop
  rw [sorts_iff_drop hn]
  constructor
  · intro h i hi
    obtain ⟨hi, -⟩ := List.mem_filter.mp hi
    obtain ⟨x, hx, rfl⟩ := List.mem_map.mp hi
    rw [List.length_map] at hx
    exact (ofPosition_eq_padding (hdrop x hx)).mp (h x hx)
  · intro h x hx
    apply (ofPosition_eq_padding (hdrop x hx)).mpr
    intro c hc
    have hmem : x.2 ∈ displaced (data.map CDist.size) := by
      apply List.mem_filter.mpr
      rw [List.length_map]
      exact ⟨List.mem_map_of_mem hx, decide_eq_true (List.getElem?_eq_some_iff.mp hc).1⟩
    exact h _ hmem c hc

theorem not_sorts {data : List CDist} (hn : ¬data.length ≤ 2 ^ 30) : ¬Sorts data (sort data) := by
  rintro ⟨out, hout, -⟩
  unfold sort at hout
  dsimp only at hout
  rw [if_neg (mt clog_lt_iff.mp hn)] at hout
  exact absurd hout (Option.some_ne_none out).symm

theorem sorts_iff {data : List CDist} : Sorts data (sort data) ↔ data.length ≤ 2 ^ 30 ∧
    ∀ i ∈ displaced (data.map CDist.size), ∀ c ∈ data[i]?, c.count = padding.count := by
  by_cases hn : data.length ≤ 2 ^ 30
  · rw [sorts_iff_displaced hn, and_iff_right hn]
  · exact iff_of_false (not_sorts hn) fun h => hn h.1

theorem exists_between {n : Nat} (h : 1 ≤ n) (hn : ∀ e, n ≠ 2 ^ e) : ∃ e, 2 ^ e < n ∧ n < 2 ^ (e + 1) := by
  refine ⟨Nat.log 2 n, lt_of_le_of_ne (Nat.pow_log_le_self 2 (by omega)) (hn _).symm, ?_⟩
  exact Nat.lt_pow_succ_log_self (by decide) n

/-- **What the sorter keeps.** An array without the size `MAX_SIZE` is sorted with its records; only a power of two of records,
up to `2 ^ 30`, is sorted whatever they are; and for a single array each displaced record must look like the padding. -/
theorem sort_iff {n : Nat} (h : 1 ≤ n) :
    (∀ data, data.length = n → n ≤ 2 ^ 30 → (∀ c ∈ data, c.size ≠ MAX_SIZE) → Sorts data (sort data)) ∧
      ((∀ data, data.length = n → Sorts data (sort data)) ↔ n ≤ 2 ^ 30 ∧ ∃ e, n = 2 ^ e) ∧
      (∀ data, data.length = n → (Sorts data (sort data) ↔
        n ≤ 2 ^ 30 ∧ ∀ i ∈ displaced (data.map CDist.size), ∀ c ∈ data[i]?, c.count = padding.count)) := by
  refine ⟨?_, ⟨?_, ?_⟩, ?_⟩
  · rintro data rfl hn hsizes
    rw [sorts_iff_displaced hn]
    intro i hi c hc
    have hsize := size_of_mem_displaced (by rwa [List.length_map]) hi
    rw [List.getElem?_map, Option.mem_def.mp hc] at hsize
    exact absurd (Option.some.inj hsize) (hsizes c (List.mem_of_getElem? hc))
  · intro hall
    have hlength : ∀ c : CDist, (List.replicate n c).length = n := fun _ => List.length_replicate
    have hzero := hall (List.replicate n ⟨MAX_SIZE, 0⟩) (hlength _)
    obtain ⟨hn, hdisplaced⟩ := sorts_iff.mp hzero
    rw [hlength] at hn
    refine ⟨hn, ?_⟩
    by_contra hpow
    rw [not_exists] at hpow
    obtain ⟨e, hlow, hhigh⟩ := exists_between h hpow
    have hmem := displaced_tied hn hlow hhigh
    rw [List.map_replicate] at hdisplaced
    have hget : (List.replicate n (⟨MAX_SIZE, 0⟩ : CDist))[2 ^ e]? = some ⟨MAX_SIZE, 0⟩ := by
      rw [List.getElem?_replicate, if_pos hlow]
    exact absurd (hdisplaced _ hmem _ hget) (by decide)
  · rintro ⟨hn, e, he⟩ data rfl
    rw [sorts_iff_displaced hn, displaced_of_two_pow (by rwa [List.length_map]) (by rw [List.length_map, he])]
    exact fun i hi => absurd hi List.not_mem_nil
  · rintro data rfl
    exact sorts_iff

/-- Three records. -/
theorem sort_iff_three :
    (∀ data, data.length = 3 → 3 ≤ 2 ^ 30 → (∀ c ∈ data, c.size ≠ MAX_SIZE) → Sorts data (sort data)) ∧
      ((∀ data, data.length = 3 → Sorts data (sort data)) ↔ 3 ≤ 2 ^ 30 ∧ ∃ e, 3 = 2 ^ e) ∧
      (∀ data, data.length = 3 → (Sorts data (sort data) ↔
        3 ≤ 2 ^ 30 ∧ ∀ i ∈ displaced (data.map CDist.size), ∀ c ∈ data[i]?, c.count = padding.count)) :=
  sort_iff (by decide)

/-- A record that the distribution left behind a run of length 1 comes out as a run of `2 ^ 32 - 1`. -/
theorem sort_displaces :
    sort [⟨MAX_SIZE, 1⟩, ⟨2, 2⟩, ⟨1, 1⟩] = some [⟨1, 1⟩, ⟨2, 2⟩, ⟨MAX_SIZE, 4294967295⟩] ∧
      ¬Sorts [⟨MAX_SIZE, 1⟩, ⟨2, 2⟩, ⟨1, 1⟩] (sort [⟨MAX_SIZE, 1⟩, ⟨2, 2⟩, ⟨1, 1⟩]) := by
  have hsort : sort [⟨MAX_SIZE, 1⟩, ⟨2, 2⟩, ⟨1, 1⟩] = some [⟨1, 1⟩, ⟨2, 2⟩, ⟨MAX_SIZE, 4294967295⟩] := by decide
  refine ⟨hsort, ?_⟩
  rintro ⟨out, hout, hperm, -⟩
  obtain rfl := Option.some.inj (hsort.symm.trans hout)
  exact absurd hperm (by decide)

end FOSketch.BitonicSorter_CDist
