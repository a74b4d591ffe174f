import FOSketch.Sorter

/-!
# The split of `bitonicMerge`

`greatestPowerOfTwoLessThan` doubles a 32-bit `int` until it passes `n` or turns negative, and shifts back. Above `2 ^ 30`
the last doubling leaves the range, so that the arithmetic shift gives `-2 ^ 30`: the function is right exactly up to there
(`greatestPowerOfTwoLessThan_iff`).
-/

namespace FOSketch.BitonicSorter

/-- The loop of `greatestPowerOfTwoLessThan(n)` goes on with `k`. -/
def Going (n k : Int) : Prop := 0 < k ∧ k < n

instance (n k : Int) : Decidable (Going n k) := inferInstanceAs (Decidable (_ ∧ _))

inductive MergeCall (n : Int) : Int → Prop
  | top : MergeCall n n
  | low {k : Int} : MergeCall n k → 1 < k → MergeCall n (greatestPowerOfTwoLessThan k)
  | high {k : Int} : MergeCall n k → 1 < k → MergeCall n (toInt32 (k - greatestPowerOfTwoLessThan k))

/-- The loop ends after `i` rounds, its result is the largest power of two below `n`, and every split of
`bitonicMerge(lo, n, dir)` leaves two parts, the upper one no longer than the lower one. -/
structure Splits (n : Int) : Prop where
  ends : ∃ i, (∀ j < i, Going n (shiftLeft^[j] 1)) ∧ ¬ Going n (shiftLeft^[i] 1) ∧
    greatestPowerOfTwoLessThan n = shiftLeft^[i] 1 >>> (1 : Nat)
  greatest : IsGreatest {m : Int | (∃ e : Nat, m = 2 ^ e) ∧ m < n} (greatestPowerOfTwoLessThan n)
  split : ∀ k, MergeCall n k → 1 < k →
    0 < greatestPowerOfTwoLessThan k ∧ greatestPowerOfTwoLessThan k < k ∧ k ≤ 2 * greatestPowerOfTwoLessThan k

/-! ## The loop -/

theorem doubled_eq_iterate {n k : Int} {i f : Nat} (hf : i ≤ f) (hgo : ∀ j < i, Going n (shiftLeft^[j] k))
    (hend : ¬ Going n (shiftLeft^[i] k)) : doubled n f k = shiftLeft^[i] k := by
  induction f generalizing k i with
  | zero =>
    obtain rfl : i = 0 := by omega
    rfl
  | succ f ih =>
    unfold doubled
    cases i with
    | zero => exact if_neg hend
    | succ i =>
      have h0 : 0 < k ∧ k < n := hgo 0 (Nat.succ_pos i)
      rw [if_pos h0, Function.iterate_succ_apply]
      exact ih (by omega) (fun j hj => hgo (j + 1) (by omega)) hend

theorem shiftLeft_iterate {i : Nat} (hi : i ≤ 30) : shiftLeft^[i] 1 = 2 ^ i := by
  induction i with
  | zero => rfl
  | succ i ih =>
    have hle : (2 : Int) ^ (i + 1) ≤ 2 ^ 30 := pow_le_pow_right₀ (by decide) hi
    have hpos : (0 : Int) < 2 ^ (i + 1) := by positivity
    rw [Function.iterate_succ_apply', ih (by omega), shiftLeft, ← pow_succ']
    exact Int.bmod_eq_of_le (by omega) (by omega)

/-- The 31st doubling leaves the range of an `int`. -/
theorem shiftLeft_iterate_31 : shiftLeft^[31] 1 = -2 ^ 31 := by
  rw [Function.iterate_succ_apply', shiftLeft_iterate le_rfl]
  rfl

/-- The loop ends after 31 rounds at most. -/
theorem exists_rounds (n : Int) : ∃ i ≤ 31, (∀ j < i, Going n (shiftLeft^[j] 1)) ∧ ¬ Going n (shiftLeft^[i] 1) := by
  have h31 : ¬ Going n (shiftLeft^[31] 1) := by
    rw [shiftLeft_iterate_31]
    exact fun h => absurd h.1 (by decide)
  have hend : ∃ i, ¬ Going n (shiftLeft^[i] 1) := ⟨31, h31⟩
  exact ⟨Nat.find hend, Nat.find_min' hend h31, fun j hj => not_not.mp (Nat.find_min hend hj), Nat.find_spec hend⟩

/-! ## The result -/

theorem greatestPowerOfTwoLessThan_of_le {n : Int} (h1 : 1 < n) (hn : n ≤ 2 ^ 30) :
    ∃ e : Nat, greatestPowerOfTwoLessThan n = 2 ^ e ∧ 2 ^ e < n ∧ n ≤ 2 * 2 ^ e := by
  lift n to Nat using by omega
  obtain ⟨e, hhalf, hlt, hle⟩ := half_halves n (by exact_mod_cast h1) (by exact_mod_cast hn)
  unfold half at hhalf
  have hpos : 0 < (greatestPowerOfTwoLessThan n).toNat := by
    rw [hhalf]
    exact Nat.two_pow_pos e
  refine ⟨e, ?_, by exact_mod_cast hlt, by exact_mod_cast hle⟩
  rw [← Int.toNat_of_nonneg (Int.lt_toNat.mp hpos).le, hhalf]
  norm_cast

/-- Above `2 ^ 30` the counter has turned negative. -/
theorem greatestPowerOfTwoLessThan_of_lt {n : Int} (hn : 2 ^ 30 < n) : greatestPowerOfTwoLessThan n = -2 ^ 30 := by
  have hgo : ∀ j < 31, Going n (shiftLeft^[j] 1) := by
    intro j hj
    have hle : (2 : Int) ^ j ≤ 2 ^ 30 := pow_le_pow_right₀ (by decide) (Nat.lt_succ_iff.mp hj)
    rw [shiftLeft_iterate (Nat.lt_succ_iff.mp hj)]
    exact ⟨by positivity, hle.trans_lt hn⟩
  have hend : ¬ Going n (shiftLeft^[31] 1) := by
    rw [shiftLeft_iterate_31]
    exact fun h => absurd h.1 (by decide)
  rw [greatestPowerOfTwoLessThan, doubled_eq_iterate (by decide) hgo hend, shiftLeft_iterate_31]
  rfl

theorem isGreatest_of_le {n : Int} {e : Nat} (hlt : 2 ^ e < n) (hle : n ≤ 2 * 2 ^ e) :
    IsGreatest {m : Int | (∃ e : Nat, m = 2 ^ e) ∧ m < n} (2 ^ e) := by
  refine ⟨⟨⟨e, rfl⟩, hlt⟩, ?_⟩
  rintro m ⟨⟨d, rfl⟩, hd⟩
  have hde : (2 : Int) ^ d < 2 ^ (e + 1) := by
    rw [pow_succ']
    exact hd.trans_le hle
  exact pow_le_pow_right₀ (by decide) (Nat.lt_succ_iff.mp ((pow_lt_pow_iff_right₀ (by decide)).mp hde))

/-! ## The recursion -/

theorem MergeCall.le {n k : Int} (h : MergeCall n k) (hn : n ≤ 2 ^ 30) : k ≤ n := by
  induction h with
  | top => exact le_rfl
  | @low k _ h1 ih =>
    obtain ⟨e, he, hlt, -⟩ := greatestPowerOfTwoLessThan_of_le h1 (ih.trans hn)
    rw [he]
    exact hlt.le.trans ih
  | @high k _ h1 ih =>
    obtain ⟨e, he, hlt, -⟩ := greatestPowerOfTwoLessThan_of_le h1 (ih.trans hn)
    have hpos : (0 : Int) < 2 ^ e := by positivity
    rw [he, toInt32, Int.bmod_eq_of_le (by omega) (by omega)]
    omega

/-- **The split** is right exactly up to `2 ^ 30`. -/
theorem greatestPowerOfTwoLessThan_iff {n : Int} (h2 : 2 ≤ n) : Splits n ↔ n ≤ 2 ^ 30 := by
  constructor
  · intro h
    by_contra hn
    have hneg := greatestPowerOfTwoLessThan_of_lt (not_le.mp hn)
    have hpos := (h.split n .top h2).1
    rw [hneg] at hpos
    exact absurd hpos (by decide)
  · intro hn
    obtain ⟨i, hi, hgo, hend⟩ := exists_rounds n
    refine ⟨⟨i, hgo, hend, ?_⟩, ?_, fun k hk h1 => ?_⟩
    · rw [greatestPowerOfTwoLessThan, doubled_eq_iterate (by omega) hgo hend]
    · obtain ⟨e, he, hlt, hle⟩ := greatestPowerOfTwoLessThan_of_le h2 hn
      rw [he]
      exact isGreatest_of_le hlt hle
    · obtain ⟨e, he, hlt, hle⟩ := greatestPowerOfTwoLessThan_of_le h1 ((hk.le hn).trans hn)
      rw [he]
      exact ⟨by positivity, hlt, hle⟩

theorem greatestPowerOfTwoLessThan_iff_100 : Splits 100 ↔ (100 : Int) ≤ 2 ^ 30 :=
  greatestPowerOfTwoLessThan_iff (by decide)

/-- `INT_MAX` is in the range of the comment. -/
theorem greatestPowerOfTwoLessThan_wraps : ¬ (∀ n : Int, 2 ≤ n → n ≤ 2147483647 → Splits n) := by
  intro h
  have hpos := ((h 2147483647 (by decide) le_rfl).split 2147483647 .top (by decide)).1
  have hneg : greatestPowerOfTwoLessThan 2147483647 = -1073741824 := by decide
  rw [hneg] at hpos
  exact absurd hpos (by decide)

end FOSketch.BitonicSorter
