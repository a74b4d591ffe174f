import FOSketch.Common
import FOSketch.Network.InPlace

/-!
# The sorters of `OPrimitive.h`

`BitonicSorter` and `OddEvenMergeSorter` on a list: the array behind `List`, whose first `num` elements are sorted. The
element-wise exchange `OSwap` stands for `OSwap4`, `OSwap8` and `OSwapEx`, which move whole elements. Neither sorter
reads its field `isASCE`. Each routine runs its network in place (`bitonicSort_eq`, `oddEvenMergeSort_eq`), so what the
networks do to sequences is what the sorters do to arrays.
-/

namespace FOSketch

open Network

variable {α β : Type*}

/-- `OSwap(i, j, cond)` on the elements `x` and `y` found at `i` and `j`. -/
def OSwap (l : List α) (i j : Nat) (x y : α) (cond : Bool) : List α :=
  let tmp := OMove x y cond
  (l.set i (OMove y x cond)).set j tmp

theorem OSwap_eq {l : List α} {i j : Nat} {x y : α} (hi : l[i]? = some x) (hj : l[j]? = some y) (cond : Bool) :
    OSwap l i j x y cond = if cond then (l.set i y).set j x else l := by
  obtain ⟨h1, rfl⟩ := List.getElem?_eq_some_iff.mp hi
  obtain ⟨h2, rfl⟩ := List.getElem?_eq_some_iff.mp hj
  cases cond <;> simp [OSwap]

/-! ## `BitonicSorter` -/

namespace BitonicSorter

/-- `k << 1` on a 32-bit `int`. -/
def shiftLeft (k : Int) : Int := Int.bmod (2 * k) 4294967296

/-- The loop of `greatestPowerOfTwoLessThan`. The `int` `k` is negative after 31 rounds at most. -/
def doubled (n : Int) : Nat → Int → Int
  | 0, k => k
  | f + 1, k => if 0 < k ∧ k < n then doubled n f (shiftLeft k) else k

def greatestPowerOfTwoLessThan (n : Int) : Int := doubled n 32 1 >>> (1 : Nat)

/-- `compare(i, j, dir)`: exchange when the comparison gives the direction. -/
def compare (greater : α → α → Bool) (l : List α) (i j : Nat) (dir : Bool) : List α :=
  match l[i]?, l[j]? with
  | some x, some y => OSwap l i j x y (dir == greater x y)
  | _, _ => l

/-- The split of `bitonicMerge`. -/
def half (n : Nat) : Nat := (greatestPowerOfTwoLessThan n).toNat

/-- `bitonicMerge(lo, n, dir)`; the first argument bounds the depth of the recursion. -/
def bitonicMerge (greater : α → α → Bool) : Nat → List α → Nat → Nat → Bool → List α
  | 0, l, _, _, _ => l
  | f + 1, l, lo, n, dir =>
    if 1 < n then
      let m := half n
      let l := (List.range' lo (n - m)).foldl (fun l i => compare greater l i (i + m) dir) l
      let l := bitonicMerge greater f l lo m dir
      bitonicMerge greater f l (lo + m) (n - m) dir
    else l

def bitonicSort (greater : α → α → Bool) : Nat → List α → Nat → Nat → Bool → List α
  | 0, l, _, _, _ => l
  | f + 1, l, lo, n, dir =>
    if 1 < n then
      let m := n / 2
      let l := bitonicSort greater f l lo m (!dir)
      let l := bitonicSort greater f l (lo + m) (n - m) dir
      bitonicMerge greater n l lo n dir
    else l

def sort (greater : α → α → Bool) (pData : List α) (num : Nat) : List α :=
  if num < 2 then pData else bitonicSort greater num pData 0 num true

def merge (greater : α → α → Bool) (pData : List α) (num : Nat) : List α :=
  if num < 2 then pData else bitonicMerge greater num pData 0 num true

theorem compare_eq (greater : α → α → Bool) (l : List α) (i j : Nat) (dir : Bool) :
    compare greater l i j dir = exchange greater ⟨i, j, dir⟩ l := by
  unfold compare exchange
  cases hi : l[i]? with
  | none => rfl
  | some x =>
    cases hj : l[j]? with
    | none => rfl
    | some y =>
      dsimp only
      rw [OSwap_eq hi hj]
      simp only [beq_iff_eq]

theorem foldl_compare (greater : α → α → Bool) (l : List α) (lo k m : Nat) (dir : Bool) :
    (List.range' lo k).foldl (fun l i => compare greater l i (i + m) dir) l =
      runList greater ((layer k m dir).map (Comparator.move (· + lo))) l := by
  rw [List.range'_eq_map_range, List.foldl_map, runList, layer, List.map_map, List.foldl_map]
  congr 1
  funext l i
  rw [compare_eq]
  simp only [Function.comp_apply, Comparator.move]
  rw [show lo + i = i + lo by omega, show i + lo + m = i + m + lo by omega]

/-- `bitonicMerge` runs the bitonic merger on the wires from `lo` on. -/
theorem bitonicMerge_eq (greater : α → α → Bool) (f : Nat) (l : List α) (lo n : Nat) (dir : Bool) :
    bitonicMerge greater f l lo n dir =
      runList greater ((mergeNet half dir f n).map (Comparator.move (· + lo))) l := by
  induction f generalizing l lo n with
  | zero => rfl
  | succ f ih =>
    unfold bitonicMerge mergeNet
    split_ifs with h
    · dsimp only
      rw [ih, ih, foldl_compare, List.map_append, List.map_append, runList_append, runList_append, map_move_move]
      congr 4
      funext k
      rw [Function.comp_apply]; omega
    · rfl

/-- `bitonicSort` runs the bitonic sorter on the wires from `lo` on. -/
theorem bitonicSort_eq (greater : α → α → Bool) (f : Nat) (l : List α) (lo n : Nat) (dir : Bool) :
    bitonicSort greater f l lo n dir =
      runList greater ((sortNet half dir f n).map (Comparator.move (· + lo))) l := by
  induction f generalizing l lo n dir with
  | zero => rfl
  | succ f ih =>
    unfold bitonicSort sortNet
    split_ifs with h
    · dsimp only
      rw [ih, ih, bitonicMerge_eq, List.map_append, List.map_append, runList_append, runList_append, map_move_move]
      congr 4
      funext k
      rw [Function.comp_apply]; omega
    · rfl

/-! ### The split -/

theorem doubled_spec {n : Nat} (hn : n ≤ 2 ^ 30) (f i : Nat) (hf : 31 ≤ f + i) (hi : i ≤ 30)
    (h0 : i = 0 ∨ 2 ^ (i - 1) < n) :
    ∃ j, doubled n f (2 ^ i : Nat) = (2 ^ j : Nat) ∧ n ≤ 2 ^ j ∧ (j = 0 ∨ 2 ^ (j - 1) < n) := by
  induction f generalizing i with
  | zero => omega
  | succ f ih =>
    unfold doubled
    by_cases h : 2 ^ i < n
    · rw [if_pos ⟨by exact_mod_cast Nat.two_pow_pos i, by exact_mod_cast h⟩]
      have hi' : i < 30 := (Nat.pow_lt_pow_iff_right (by omega)).mp (h.trans_le hn)
      have hle : 2 ^ (i + 1) ≤ 2 ^ 30 := Nat.pow_le_pow_right (by omega) hi'
      have hshift : shiftLeft ((2 ^ i : Nat) : Int) = (2 ^ (i + 1) : Nat) := by
        rw [shiftLeft, pow_succ', Nat.cast_mul, Nat.cast_ofNat]
        rw [pow_succ'] at hle
        exact Int.bmod_eq_of_le (by omega) (by omega)
      rw [hshift]
      exact ih (i + 1) (by omega) hi' (.inr (by rwa [Nat.add_sub_cancel]))
    · rw [if_neg (by rintro ⟨-, h'⟩; exact h (by exact_mod_cast h'))]
      exact ⟨i, rfl, not_lt.mp h, h0⟩

/-- Up to `2 ^ 30` elements the split is the greatest power of two below the length. -/
theorem half_halves : Halves half (2 ^ 30) := by
  intro n h1 hn
  obtain ⟨j, hj, hle, hlt⟩ := doubled_spec hn 32 0 (by omega) (by omega) (.inl rfl)
  have hj0 : j ≠ 0 := by rintro rfl; rw [pow_zero] at hle; omega
  obtain ⟨e, rfl⟩ := Nat.exists_eq_succ_of_ne_zero hj0
  have hhalf : half n = 2 ^ e := by
    rw [pow_zero, Nat.cast_one] at hj
    rw [half, greatestPowerOfTwoLessThan, hj, Int.shiftRight_eq_div_pow, Nat.succ_eq_add_one, pow_succ]
    norm_cast
    rw [pow_one, Nat.mul_div_cancel _ (by omega)]
  refine ⟨e, hhalf, ?_, by rwa [← pow_succ']⟩
  simpa using hlt

/-! ### What `sort` and `merge` do -/

theorem sort_eq (greater : α → α → Bool) (l : List α) (num : Nat) :
    sort greater l num = runList greater (sortNet half true num num) l := by
  unfold sort
  split_ifs with h
  · obtain rfl | rfl : num = 0 ∨ num = 1 := by omega
    · rfl
    · rfl
  · rw [bitonicSort_eq]
    exact congrArg (runList greater · l) (List.map_id _)

theorem merge_eq (greater : α → α → Bool) (l : List α) (num : Nat) :
    merge greater l num = runList greater (mergeNet half true num num) l := by
  unfold merge
  split_ifs with h
  · obtain rfl | rfl : num = 0 ∨ num = 1 := by omega
    · rfl
    · rfl
  · rw [bitonicMerge_eq]
    exact congrArg (runList greater · l) (List.map_id _)

theorem sort_perm (greater : α → α → Bool) (l : List α) (num : Nat) : (sort greater l num).Perm l := by
  rw [sort_eq]; exact runList_perm greater _ l

theorem merge_perm (greater : α → α → Bool) (l : List α) (num : Nat) : (merge greater l num).Perm l := by
  rw [merge_eq]; exact runList_perm greater _ l

section Map
variable (f : α → β) (greater : α → α → Bool) (greater' : β → β → Bool) (hg : ∀ x y, greater x y = greater' (f x) (f y))
include hg

theorem sort_map (l : List α) (num : Nat) : (sort greater l num).map f = sort greater' (l.map f) num := by
  rw [sort_eq, sort_eq, runList_map f greater greater' hg]

theorem merge_map (l : List α) (num : Nat) : (merge greater l num).map f = merge greater' (l.map f) num := by
  rw [merge_eq, merge_eq, runList_map f greater greater' hg]

end Map

section Spec
variable [LinearOrder β] {greater : α → α → Bool} {key : α → β}

/-- **`sort`** puts the whole array in order. -/
theorem sort_pairwise (hg : Compares greater key) {l : List α} (hl : l.length ≤ 2 ^ 30) :
    (sort greater l l.length).Pairwise fun x y => key x ≤ key y := by
  rcases l with _ | ⟨d, l⟩
  · exact List.Pairwise.nil
  rw [sort_eq]
  have h := pairwise_take_runList hg d (sortNet_below half true half_halves (d :: l).length _ hl) (le_refl _)
  rw [List.take_of_length_le (by rw [length_runList])] at h
  exact h.mpr (sortNet_sorts half_halves (le_refl _) hl _).1

/-- **`merge`** puts an array in order that does not increase and then does not decrease. -/
theorem merge_pairwise (hg : Compares greater key) {l r : List α} (hlr : (l ++ r).length ≤ 2 ^ 30)
    (hl : l.Pairwise fun x y => key y ≤ key x) (hr : r.Pairwise fun x y => key x ≤ key y) :
    (merge greater (l ++ r) (l ++ r).length).Pairwise fun x y => key x ≤ key y := by
  generalize h : l ++ r = s at hlr
  rcases s with _ | ⟨d, s⟩
  · exact List.Pairwise.nil
  have hv := valley_append key d hl hr
  rw [h] at hv
  rw [merge_eq]
  have h := pairwise_take_runList hg d (mergeNet_below half true half_halves (d :: s).length _ hlr) (le_refl _)
  rw [List.take_of_length_le (by rw [length_runList])] at h
  exact h.mpr (mergeNet_ascending half_halves (le_refl _) hlr hv)

/-- Whatever the order of the array is, `merge` puts a least element first. -/
theorem merge_head (hg : Compares greater key) {l : List α} (hl : l.length ≤ 2 ^ 30) {x : α} {r : List α}
    (h : merge greater l l.length = x :: r) : ∀ y ∈ l, key x ≤ key y := by
  intro y hy
  obtain ⟨k, hk, rfl⟩ := List.mem_iff_getElem.mp hy
  rw [merge_eq] at h
  have hbelow := mergeNet_below half true half_halves l.length _ hl
  have hkeys := run_key hg x hbelow
  rw [h] at hkeys
  have hfirst := mergeNet_first half_halves le_rfl hl (key ∘ seq x l) hk
  rw [← hkeys, Function.comp_apply, Function.comp_apply, seq_of_lt x hk] at hfirst
  exact hfirst

end Spec

theorem sort_append (greater : α → α → Bool) {l : List α} (hl : l.length ≤ 2 ^ 30) (r : List α) :
    sort greater (l ++ r) l.length = sort greater l l.length ++ r := by
  rw [sort_eq, sort_eq, runList_append_right greater (sortNet_below half true half_halves _ _ hl)]

theorem merge_append (greater : α → α → Bool) {l : List α} (hl : l.length ≤ 2 ^ 30) (r : List α) :
    merge greater (l ++ r) l.length = merge greater l l.length ++ r := by
  rw [merge_eq, merge_eq, runList_append_right greater (mergeNet_below half true half_halves _ _ hl)]

end BitonicSorter

/-! ## `OddEvenMergeSorter` -/

namespace OddEvenMergeSorter

def compare (greater : α → α → Bool) (l : List α) (i j : Nat) : List α :=
  match l[i]?, l[j]? with
  | some x, some y => OSwap l i j x y (greater x y)
  | _, _ => l

/-- The values of `i` in `for (i = s; i < e; i += step)`. -/
def steps (s e step : Nat) : List Nat := List.range' s ((e - s + (step - 1)) / step) step

/-- `oddEvenMerge(lo, n, r)`; the first argument bounds the depth of the recursion. -/
def oddEvenMerge (greater : α → α → Bool) : Nat → List α → Nat → Nat → Nat → List α
  | 0, l, _, _, _ => l
  | f + 1, l, lo, n, r =>
    let m := r * 2
    if m < n then
      let l := oddEvenMerge greater f l lo n m
      let l := oddEvenMerge greater f l (lo + r) n m
      (steps (lo + r) (lo + n - r) m).foldl (fun l i => compare greater l i (i + r)) l
    else compare greater l lo (lo + r)

def oddEvenMergeSort (greater : α → α → Bool) : Nat → List α → Nat → Nat → List α
  | 0, l, _, _ => l
  | f + 1, l, lo, n =>
    if 1 < n then
      let m := n / 2
      let l := oddEvenMergeSort greater f l lo m
      let l := oddEvenMergeSort greater f l (lo + m) m
      oddEvenMerge greater n l lo n 1
    else l

/-- The argument `n` for `num` elements. It is an `int`, and a negative one does what `0` does. -/
def intArg (num : Nat) : Nat := (Int.bmod num 4294967296).toNat

/-- `sort(pData, num)`, which does nothing when `num` is not a power of two. -/
def sort (greater : α → α → Bool) (pData : List α) (num : Nat) : List α :=
  if num < 2 then pData else if !testPo2 num then pData else oddEvenMergeSort greater num pData 0 (intArg num)

/-- `merge(pData, num)`, which does nothing when `num` is not a power of two. -/
def merge (greater : α → α → Bool) (pData : List α) (num : Nat) : List α :=
  if num < 2 then pData else if !testPo2 num then pData else oddEvenMerge greater num pData 0 (intArg num) 1

theorem intArg_of_lt {num : Nat} (h : num < 2147483648) : intArg num = num := by
  have hbmod : Int.bmod (num : Int) 4294967296 = num := by
    rw [Int.bmod_eq_of_le]
    · omega
    · omega
  unfold intArg
  rw [hbmod, Int.toNat_natCast]

theorem intArg_of_large {e : Nat} (he : 31 ≤ e) : intArg (2 ^ e) = 0 := by
  rcases he.eq_or_lt with h | h
  · subst h
    decide
  · have hdvd : (4294967296 : Nat) ∣ 2 ^ e := Nat.pow_dvd_pow 2 (show 32 ≤ e from h)
    have hbmod : Int.bmod ((2 ^ e : Nat) : Int) 4294967296 = 0 :=
      Int.bmod_eq_zero_of_dvd (Int.natCast_dvd_natCast.mpr hdvd)
    unfold intArg
    rw [hbmod]
    rfl

theorem compare_eq (greater : α → α → Bool) (l : List α) (i j : Nat) :
    compare greater l i j = exchange greater ⟨i, j, true⟩ l := by
  unfold compare exchange
  cases hi : l[i]? with
  | none => rfl
  | some x =>
    cases hj : l[j]? with
    | none => rfl
    | some y =>
      dsimp only
      rw [OSwap_eq hi hj]
      exact if_congr eq_comm rfl rfl

theorem range'_step (s n step : Nat) : List.range' s n step = (List.range n).map fun t => s + step * t := by
  refine List.ext_getElem (by rw [List.length_range', List.length_map, List.length_range]) fun i _ _ => ?_
  rw [List.getElem_range', List.getElem_map, List.getElem_range]

theorem steps_neighbours (lo r k : Nat) (hr : 0 < r) :
    steps (lo + r) (lo + 2 ^ (k + 2) * r - r) (r * 2) =
      (List.range (2 ^ (k + 1) - 1)).map fun t => lo + r + r * 2 * t := by
  have h1 : 2 ^ (k + 2) = 2 * 2 ^ (k + 1) := pow_succ' 2 (k + 1)
  have h2 : lo + 2 ^ (k + 2) * r - r - (lo + r) = (2 ^ (k + 1) - 1) * (r * 2) := by
    rw [h1, Nat.sub_mul, show 2 * 2 ^ (k + 1) * r = 2 ^ (k + 1) * (r * 2) by ring]; omega
  rw [steps, h2, Nat.mul_comm, Nat.mul_add_div (by omega), Nat.div_eq_of_lt (by omega), Nat.add_zero,
    range'_step]

theorem foldl_compare (greater : α → α → Bool) (l : List α) (lo r k : Nat) (hr : 0 < r) :
    (steps (lo + r) (lo + 2 ^ (k + 2) * r - r) (r * 2)).foldl (fun l i => compare greater l i (i + r)) l =
      runList greater ((neighbours (2 ^ (k + 1) - 1)).map (Comparator.move (lo + · * r))) l := by
  rw [steps_neighbours lo r k hr, List.foldl_map, runList, neighbours, List.map_map, List.foldl_map]
  congr 1
  funext l t
  rw [compare_eq]
  simp only [Function.comp_apply, Comparator.move]
  rw [show lo + r + r * 2 * t = lo + (2 * t + 1) * r by ring, show lo + (2 * t + 1) * r + r = lo + (2 * t + 2) * r by ring]

/-- `oddEvenMerge` runs the odd-even merger on every `r`-th wire from `lo` on. -/
theorem oddEvenMerge_eq (greater : α → α → Bool) (k : Nat) {f : Nat} (hf : k < f) (l : List α) (lo : Nat) {r : Nat}
    (hr : 0 < r) : oddEvenMerge greater f l lo (2 ^ (k + 1) * r) r =
      runList greater ((oddEvenMergeNet (k + 1)).map (Comparator.move (lo + · * r))) l := by
  induction k generalizing f l lo r with
  | zero =>
    obtain ⟨f, rfl⟩ : ∃ g, f = g + 1 := ⟨f - 1, by omega⟩
    rw [oddEvenMerge, if_neg (by omega), compare_eq]
    simp [oddEvenMergeNet, Comparator.move]
  | succ k ih =>
    obtain ⟨f, rfl⟩ : ∃ g, f = g + 1 := ⟨f - 1, by omega⟩
    have hpos := Nat.two_pow_pos k
    have h4 : 2 ^ (k + 1 + 1) * r = 2 ^ (k + 1) * (r * 2) := by rw [pow_succ]; ring
    have hlt : r * 2 < 2 ^ (k + 1) * (r * 2) := by
      have : 1 < 2 ^ (k + 1) := Nat.one_lt_two_pow (by omega)
      exact (Nat.lt_mul_iff_one_lt_left (by omega)).mpr this
    rw [oddEvenMerge, if_pos (by rwa [h4])]
    dsimp only
    rw [foldl_compare greater _ lo r k hr, h4, ih (by omega) _ _ (by omega), ih (by omega) _ _ (by omega),
      oddEvenMergeNet, List.map_append, List.map_append, runList_append, runList_append, map_move_move, map_move_move]
    have e1 : (lo + · * (r * 2)) = (lo + · * r) ∘ (2 * ·) := by funext i; simp only [Function.comp_apply]; ring
    have e2 : (lo + r + · * (r * 2)) = (lo + · * r) ∘ (2 * · + 1) := by
      funext i; simp only [Function.comp_apply]; ring
    rw [e1, e2]

/-- `oddEvenMergeSort` runs the odd-even sorter on the wires from `lo` on. -/
theorem oddEvenMergeSort_eq (greater : α → α → Bool) (e : Nat) {f : Nat} (hf : e ≤ f) (l : List α) (lo : Nat) :
    oddEvenMergeSort greater f l lo (2 ^ e) =
      runList greater ((oddEvenSortNet e).map (Comparator.move (· + lo))) l := by
  induction e generalizing f l lo with
  | zero => cases f <;> rfl
  | succ e ih =>
    obtain ⟨f, rfl⟩ : ∃ g, f = g + 1 := ⟨f - 1, by omega⟩
    have h2 : 2 ^ (e + 1) / 2 = 2 ^ e := by rw [pow_succ, Nat.mul_div_cancel _ (by omega)]
    have hm := fun l => oddEvenMerge_eq greater e (f := 2 ^ (e + 1))
      (Nat.lt_trans (Nat.lt_succ_self e) Nat.lt_two_pow_self) l lo (r := 1) (by omega)
    simp only [Nat.mul_one] at hm
    rw [oddEvenMergeSort, if_pos (Nat.one_lt_two_pow (by omega))]
    dsimp only
    rw [h2, ih (by omega), ih (by omega), hm, oddEvenSortNet, List.map_append, List.map_append, runList_append,
      runList_append, map_move_move]
    congr 2
    · congr 2
      funext k
      omega
    · congr 2
      funext k
      rw [Function.comp_apply]; omega

theorem sort_eq (greater : α → α → Bool) (l : List α) {e : Nat} (hmax : 2 ^ e ≤ 2 ^ 30) :
    sort greater l (2 ^ e) = runList greater (oddEvenSortNet e) l := by
  unfold sort
  rw [testPo2_iff.mpr ⟨e, rfl⟩, intArg_of_lt (by omega), oddEvenMergeSort_eq greater e Nat.lt_two_pow_self.le]
  split_ifs with h
  · obtain rfl : e = 0 := by
      by_contra he
      exact absurd (Nat.one_lt_two_pow he) (by omega)
    rfl
  · exact absurd ‹(!true) = true› (by decide)
  · exact congrArg (runList greater · l) (List.map_id _)

theorem merge_eq (greater : α → α → Bool) (l : List α) {e : Nat} (hmax : 2 ^ (e + 1) ≤ 2 ^ 30) :
    merge greater l (2 ^ (e + 1)) = runList greater (oddEvenMergeNet (e + 1)) l := by
  have hm := oddEvenMerge_eq greater e (f := 2 ^ (e + 1)) (Nat.lt_trans (Nat.lt_succ_self e) Nat.lt_two_pow_self) l 0
    (r := 1) (by omega)
  rw [Nat.mul_one] at hm
  have h1 : 1 < 2 ^ (e + 1) := Nat.one_lt_two_pow (by omega)
  rw [merge, if_neg (by omega), testPo2_iff.mpr ⟨e + 1, rfl⟩, Bool.not_true, if_neg (by simp), intArg_of_lt (by omega), hm]
  have hid : (0 + · * 1 : Nat → Nat) = id := by funext k; rw [id, Nat.mul_one, Nat.zero_add]
  rw [hid]
  exact congrArg (runList greater · l) (List.map_id _)

theorem two_pow_le_or (e : Nat) : 2 ^ e ≤ 2 ^ 30 ∨ 31 ≤ e := by
  rcases Nat.lt_or_ge 30 e with h | h
  · exact Or.inr h
  · exact Or.inl (Nat.pow_le_pow_right (by decide) h)

/-- From `2 ^ 31` elements on, nothing is sorted. -/
theorem sort_of_large (greater : α → α → Bool) (l : List α) {e : Nat} (he : 31 ≤ e) : sort greater l (2 ^ e) = l := by
  have h2 : 2 ≤ 2 ^ e := le_self_pow₀ one_le_two (by omega)
  have hnone : ∀ f, oddEvenMergeSort greater f l 0 0 = l := fun f => by cases f <;> rfl
  rw [sort, if_neg (by omega), testPo2_iff.mpr ⟨e, rfl⟩, Bool.not_true, if_neg Bool.false_ne_true, intArg_of_large he,
    hnone]

/-- From `2 ^ 31` elements on, only the first two are compared. -/
theorem merge_of_large (greater : α → α → Bool) (l : List α) {e : Nat} (he : 31 ≤ e) :
    merge greater l (2 ^ e) = runList greater [⟨0, 1, true⟩] l := by
  have h2 : 2 ≤ 2 ^ e := le_self_pow₀ one_le_two (by omega)
  obtain ⟨f, hf⟩ : ∃ f, 2 ^ e = f + 1 := ⟨2 ^ e - 1, by omega⟩
  rw [merge, if_neg (by omega), testPo2_iff.mpr ⟨e, rfl⟩, Bool.not_true, if_neg Bool.false_ne_true, intArg_of_large he,
    hf, oddEvenMerge, if_neg (by omega), compare_eq]
  rfl

theorem sort_perm (greater : α → α → Bool) (l : List α) (num : Nat) : (sort greater l num).Perm l := by
  by_cases h : testPo2 num = true
  · obtain ⟨e, rfl⟩ := testPo2_iff.mp h
    rcases two_pow_le_or e with he | he
    · rw [sort_eq greater l he]; exact runList_perm greater _ l
    · rw [sort_of_large greater l he]
  · simp [sort, h]

theorem merge_perm (greater : α → α → Bool) (l : List α) (num : Nat) : (merge greater l num).Perm l := by
  by_cases h : testPo2 num = true
  · obtain ⟨e, rfl⟩ := testPo2_iff.mp h
    rcases two_pow_le_or e with he | he
    · rcases e with _ | e
      · exact List.Perm.refl l
      · rw [merge_eq greater l he]; exact runList_perm greater _ l
    · rw [merge_of_large greater l he]; exact runList_perm greater _ l
  · simp [merge, h]

section Map
variable (f : α → β) (greater : α → α → Bool) (greater' : β → β → Bool) (hg : ∀ x y, greater x y = greater' (f x) (f y))
include hg

theorem sort_map (l : List α) (num : Nat) : (sort greater l num).map f = sort greater' (l.map f) num := by
  by_cases h : testPo2 num = true
  · obtain ⟨e, rfl⟩ := testPo2_iff.mp h
    rcases two_pow_le_or e with he | he
    · rw [sort_eq greater l he, sort_eq greater' _ he, runList_map f greater greater' hg]
    · rw [sort_of_large greater l he, sort_of_large greater' _ he]
  · simp [sort, h]

theorem merge_map (l : List α) (num : Nat) : (merge greater l num).map f = merge greater' (l.map f) num := by
  by_cases h : testPo2 num = true
  · obtain ⟨e, rfl⟩ := testPo2_iff.mp h
    rcases two_pow_le_or e with he | he
    · rcases e with _ | e
      · rfl
      · rw [merge_eq greater l he, merge_eq greater' _ he, runList_map f greater greater' hg]
    · rw [merge_of_large greater l he, merge_of_large greater' _ he, runList_map f greater greater' hg]
  · simp [merge, h]

end Map

section Spec
variable [LinearOrder β] {greater : α → α → Bool} {key : α → β}

/-- **`sort`** puts an array in order whose length is a power of two. -/
theorem sort_pairwise (hg : Compares greater key) {l : List α} {e : Nat} (hl : l.length = 2 ^ e)
    (hmax : l.length ≤ 2 ^ 30) :
    (sort greater l l.length).Pairwise fun x y => key x ≤ key y := by
  rcases l with _ | ⟨d, l⟩
  · exact List.Pairwise.nil
  have h := pairwise_take_runList hg d (oddEvenSortNet_below e) hl.ge
  rw [List.take_of_length_le (by rw [length_runList, hl])] at h
  rw [hl, sort_eq greater _ (hl ▸ hmax)]
  exact h.mpr (oddEvenSort_ascending e _)

/-- **`merge`** puts an array in order whose two halves are in order. -/
theorem merge_pairwise (hg : Compares greater key) {l r : List α} {e : Nat} (hl : l.length = 2 ^ e)
    (hr : r.length = 2 ^ e) (hmax : 2 ^ (e + 1) ≤ 2 ^ 30) (hpl : l.Pairwise fun x y => key x ≤ key y)
    (hpr : r.Pairwise fun x y => key x ≤ key y) :
    (merge greater (l ++ r) (2 ^ (e + 1))).Pairwise fun x y => key x ≤ key y := by
  rcases l with _ | ⟨d, l⟩
  · exact absurd hl (Nat.two_pow_pos e).ne
  have h2 : (d :: l ++ r).length = 2 ^ (e + 1) := by rw [List.length_append, hl, hr, pow_succ]; omega
  have h := pairwise_take_runList hg d (oddEvenMergeNet_below (e + 1)) h2.ge
  rw [List.take_of_length_le (by rw [length_runList, h2])] at h
  rw [merge_eq greater _ hmax]
  refine h.mpr (oddEvenMerge_ascending e ?_ ?_)
  · rw [← pairwise_take_iff key d (by rw [h2, pow_succ]; omega), List.take_left' hl]
    exact hpl
  · have hs : (fun i => (key ∘ seq d (d :: l ++ r)) (2 ^ e + i)) = key ∘ seq d r := by
      funext i
      rw [Function.comp_apply, Function.comp_apply, ← hl, seq_append_right]
    rw [hs, ← pairwise_take_iff key d hr.ge, List.take_of_length_le hr.le]
    exact hpr

end Spec

theorem sort_append (greater : α → α → Bool) {l : List α} {e : Nat} (hl : l.length = 2 ^ e) (r : List α) :
    sort greater (l ++ r) l.length = sort greater l l.length ++ r := by
  rw [hl]
  rcases two_pow_le_or e with he | he
  · rw [sort_eq greater _ he, sort_eq greater _ he, runList_append_right greater (hl ▸ oddEvenSortNet_below e)]
  · rw [sort_of_large greater _ he, sort_of_large greater _ he]

theorem merge_append (greater : α → α → Bool) {l : List α} {e : Nat} (hl : l.length = 2 ^ (e + 1))
    (hmax : l.length ≤ 2 ^ 30) (r : List α) :
    merge greater (l ++ r) l.length = merge greater l l.length ++ r := by
  have hmax' : 2 ^ (e + 1) ≤ 2 ^ 30 := hl ▸ hmax
  rw [hl, merge_eq greater _ hmax', merge_eq greater _ hmax',
    runList_append_right greater (hl ▸ oddEvenMergeNet_below (e + 1))]

end OddEvenMergeSorter

/-! ## Keys in a total preorder -/

section Preordered
variable {κ : Type*} [Preorder κ] [@Std.Total κ (· ≤ ·)] {greater : α → α → Bool} {key : α → κ}

omit [@Std.Total κ (· ≤ ·)] in
theorem key_le_iff (x y : α) :
    toAntisymmetrization (· ≤ ·) (key x) ≤ toAntisymmetrization (· ≤ ·) (key y) ↔ key x ≤ key y :=
  toAntisymmetrization_le_toAntisymmetrization_iff

theorem compares_class [DecidableLE κ] [DecidableLT κ] (hg : ∀ x y, greater x y = true ↔ key y < key x) :
    Compares greater fun x => toAntisymmetrization (· ≤ ·) (key x) := by
  intro x y
  rw [Bool.eq_iff_iff, hg, decide_eq_true_iff]
  exact toAntisymmetrization_lt_toAntisymmetrization_iff.symm

/-- **`BitonicSorter`** sorts arrays of every length and merges at every turn. -/
theorem BitonicSorter.bitonic_spec (hg : ∀ x y, greater x y = true ↔ key y < key x) {l : List α}
    (hl : l.length ≤ 2 ^ 30) :
    ((sort greater l l.length).Perm l ∧ (sort greater l l.length).Pairwise fun x y => key x ≤ key y) ∧
      ∀ turn, ((l.take turn).Pairwise fun x y => key y ≤ key x) → ((l.drop turn).Pairwise fun x y => key x ≤ key y) →
        (merge greater l l.length).Perm l ∧ (merge greater l l.length).Pairwise fun x y => key x ≤ key y := by
  classical
  have hcmp := compares_class hg
  refine ⟨⟨sort_perm greater l _, ?_⟩, ?_⟩
  · exact (sort_pairwise hcmp hl).imp fun h => (key_le_iff _ _).mp h
  · intro turn hdown hup
    refine ⟨merge_perm greater l _, ?_⟩
    have hcat : l.take turn ++ l.drop turn = l := List.take_append_drop turn l
    have hmerge := merge_pairwise hcmp (hcat.symm ▸ hl) (hdown.imp fun h => (key_le_iff _ _).mpr h)
      (hup.imp fun h => (key_le_iff _ _).mpr h)
    rw [hcat] at hmerge
    exact hmerge.imp fun h => (key_le_iff _ _).mp h

/-- Three pairs, two of them with one key, sorted by the first component; merged with the turn behind the first. -/
theorem BitonicSorter.bitonic_spec_three :
    let greater := fun x y : Nat × Nat => decide (y.1 < x.1)
    let l := [(2, 0), (1, 1), (2, 2)]
    ((sort greater l 3).Perm l ∧ (sort greater l 3).Pairwise fun x y => x.1 ≤ y.1) ∧
      (merge greater l 3).Perm l ∧ (merge greater l 3).Pairwise fun x y => x.1 ≤ y.1 := by
  intro greater l
  have h : ((sort greater l 3).Perm l ∧ (sort greater l 3).Pairwise fun x y => x.1 ≤ y.1) ∧ ∀ turn, _ :=
    bitonic_spec (fun x y => decide_eq_true_iff) (by decide)
  exact ⟨h.1, h.2 1 (by decide) (by decide)⟩

/-- **`OddEvenMergeSorter`** does so for powers of two up to the largest `int`. -/
theorem OddEvenMergeSorter.oddEven_spec (hg : ∀ x y, greater x y = true ↔ key y < key x) {l : List α} {e : Nat}
    (he : 1 ≤ e) (hl : l.length = 2 ^ e) (hmax : l.length ≤ 2 ^ 30) :
    ((sort greater l l.length).Perm l ∧ (sort greater l l.length).Pairwise fun x y => key x ≤ key y) ∧
      (((l.take (l.length / 2)).Pairwise fun x y => key x ≤ key y) →
        ((l.drop (l.length / 2)).Pairwise fun x y => key x ≤ key y) →
          (merge greater l l.length).Perm l ∧ (merge greater l l.length).Pairwise fun x y => key x ≤ key y) := by
  classical
  have hcmp := compares_class hg
  refine ⟨⟨sort_perm greater l _, ?_⟩, ?_⟩
  · exact (sort_pairwise hcmp hl hmax).imp fun h => (key_le_iff _ _).mp h
  · intro hfirst hsecond
    refine ⟨merge_perm greater l _, ?_⟩
    obtain ⟨e, rfl⟩ : ∃ k, e = k + 1 := ⟨e - 1, by omega⟩
    have hhalf : l.length / 2 = 2 ^ e := by rw [hl, pow_succ, Nat.mul_div_cancel _ (by decide)]
    have hcat : l.take (l.length / 2) ++ l.drop (l.length / 2) = l := List.take_append_drop _ l
    have htake : (l.take (l.length / 2)).length = 2 ^ e := by
      rw [List.length_take, hhalf, hl, pow_succ]
      omega
    have hdrop : (l.drop (l.length / 2)).length = 2 ^ e := by
      rw [List.length_drop, hhalf, hl, pow_succ]
      omega
    have hmerge := merge_pairwise hcmp htake hdrop (hl ▸ hmax) (hfirst.imp fun h => (key_le_iff _ _).mpr h)
      (hsecond.imp fun h => (key_le_iff _ _).mpr h)
    rw [hcat, ← hl] at hmerge
    exact hmerge.imp fun h => (key_le_iff _ _).mp h

theorem OddEvenMergeSorter.oddEven_spec_four :
    let greater := fun x y : Nat × Nat => decide (y.1 < x.1)
    let l := [(1, 0), (2, 1), (1, 2), (3, 3)]
    ((sort greater l 4).Perm l ∧ (sort greater l 4).Pairwise fun x y => x.1 ≤ y.1) ∧
      (merge greater l 4).Perm l ∧ (merge greater l 4).Pairwise fun x y => x.1 ≤ y.1 := by
  intro greater l
  have h : ((sort greater l 4).Perm l ∧ (sort greater l 4).Pairwise fun x y => x.1 ≤ y.1) ∧ (_ → _ → _) :=
    oddEven_spec (fun x y => decide_eq_true_iff) (show 1 ≤ 2 by decide) rfl (by decide)
  exact ⟨h.1, h.2 (by decide) (by decide)⟩

end Preordered

/-- `2 ^ 31` elements do not fit an `int`, and stay as they are. -/
theorem OddEvenMergeSorter.sort_int_overflow :
    let l := 1 :: List.replicate 2147483647 0
    l.length = 2 ^ 31 ∧ ¬(sort (fun x y : Nat => decide (y < x)) l (2 ^ 31)).Pairwise fun x y => x ≤ y := by
  intro l
  refine ⟨?_, ?_⟩
  · rw [List.length_cons, List.length_replicate]
    norm_num
  · rw [sort_of_large _ _ le_rfl, List.pairwise_cons]
    intro h
    have hzero := h.1 0 (List.mem_replicate.mpr ⟨by decide, rfl⟩)
    exact absurd hzero (by decide)

end FOSketch
