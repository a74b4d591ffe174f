import FOSketch.Network.Bitonic

/-!
# The bitonic merger on two runs

The bitonic merger is made for one run of each value. Here is what it does to a sequence that is `false` on two runs,
the first at the left end: two sequences in order, one behind the other, look like this. `mergesTwoRuns` follows the
recursion of the merger on the ends of the runs and says when the outcome is in order (`mergeNet_twoRuns`).
-/

namespace FOSketch.Network

variable {N t n s : Nat} {v : Nat → Bool}

/-- `v` is `false` on `[0, t)` and on `[n, n + s)` and `true` elsewhere below `N`. -/
def TwoRuns (N t n s : Nat) (v : Nat → Bool) : Prop := ∀ i < N, v i = false ↔ i < t ∨ (n ≤ i ∧ i < n + s)

/-- Whether the merger of length `2 ^ e` puts the runs `[0, t)` and `[n, n + s)` in order. -/
def mergesTwoRuns : Nat → Nat → Nat → Nat → Bool
  | 0, _, _, _ => true
  | e + 1, t, n, s =>
    if t = 0 ∨ s = 0 ∨ n ≤ t ∨ n + s = 2 ^ (e + 1) then true
    else if 2 ^ e ≤ t then mergesTwoRuns e (t - 2 ^ e) (n - 2 ^ e) s
    else if 2 ^ e ≤ n then decide (t ≤ n - 2 ^ e) && mergesTwoRuns e t (n - 2 ^ e) s
    else if n + s ≤ 2 ^ e then mergesTwoRuns e t n s
    else decide (2 ^ e ≤ s) && mergesTwoRuns e t n (s - 2 ^ e)

/-- Two runs that touch, or of which one is empty or ends at the right end, are one run of some value. -/
theorem TwoRuns.oneRun (h : TwoRuns N t n s v) (ht : t ≤ n) (hone : t = 0 ∨ s = 0 ∨ n ≤ t ∨ n + s = N) :
    ∃ x, OneRun x N v := by
  rcases hone with rfl | rfl | hnt | hN
  · exact ⟨false, n, n + s, fun i hi => by rw [h i hi]; omega⟩
  · exact ⟨false, 0, t, fun i hi => by rw [h i hi]; omega⟩
  · exact ⟨false, 0, n + s, fun i hi => by rw [h i hi]; omega⟩
  · exact ⟨true, t, n, fun i hi => by rw [← Bool.not_eq_false, h i hi]; omega⟩

theorem TwoRuns.low {m : Nat} (h : TwoRuns (2 * m) t n s v) {i : Nat} (hi : i < m) :
    lowBits m (2 * m) v i = false ↔ (i < t ∨ (n ≤ i ∧ i < n + s)) ∨ i + m < t ∨ (n ≤ i + m ∧ i + m < n + s) := by
  rw [lowBits_false, h i (by omega), h (i + m) (by omega), and_iff_right (show i < 2 * m - m by omega)]

theorem TwoRuns.high {m : Nat} (h : TwoRuns (2 * m) t n s v) {i : Nat} (hi : i < m) :
    highBits m v i = false ↔ (i < t ∨ (n ≤ i ∧ i < n + s)) ∧ (i + m < t ∨ (n ≤ i + m ∧ i + m < n + s)) := by
  rw [highBits_false, h i (by omega), h (i + m) (by omega)]

/-- **The merger on two runs**, the first at the left end. -/
theorem mergeNet_twoRuns {split : Nat → Nat} (hs : Halves split N) {e f : Nat} (hf : 2 ^ e ≤ f) (hN : 2 ^ e ≤ N)
    (ht : t ≤ n) (hn : n + s ≤ 2 ^ e) (hv : TwoRuns (2 ^ e) t n s v) :
    Ascending (2 ^ e) (run gt (mergeNet split true f (2 ^ e)) v) ↔ mergesTwoRuns e t n s = true := by
  induction e generalizing f t n s v with
  | zero => exact iff_of_true (mergeNet_two_pow hs hf hN (hv.oneRun ht (by omega))) rfl
  | succ e ih =>
    have h2 : 2 ^ (e + 1) = 2 * 2 ^ e := pow_succ' 2 e
    have hpos := Nat.two_pow_pos e
    unfold mergesTwoRuns
    by_cases hone : t = 0 ∨ s = 0 ∨ n ≤ t ∨ n + s = 2 ^ (e + 1)
    · rw [if_pos hone]
      exact iff_of_true (mergeNet_two_pow hs hf hN (hv.oneRun ht hone)) rfl
    obtain ⟨f, rfl⟩ : ∃ g, f = g + 1 := ⟨f - 1, by omega⟩
    have hm := hs.split_two_pow hN
    have hstep := mergeNet_step hs (f := f) (v := v) (n := 2 ^ (e + 1)) (by omega) hN
    rw [hm, h2, show 2 * 2 ^ e - 2 ^ e = 2 ^ e by omega] at hstep
    rw [if_neg hone, h2, hstep]
    rw [h2] at hv hn hone hN
    have hlow := fun i hi => hv.low (m := 2 ^ e) (i := i) hi
    have hhigh := fun i hi => hv.high (m := 2 ^ e) (i := i) hi
    have hconst : ∀ (x : Bool) (w : Nat → Bool), (∀ i < 2 ^ e, w i = x) →
        Ascending (2 ^ e) (run gt (mergeNet split true f (2 ^ e)) w) := fun x w hw =>
      mergeNet_two_pow hs (by omega) (by omega) ⟨x, 0, 2 ^ e, fun i hi => iff_of_true (hw i hi) (by omega)⟩
    by_cases h1 : 2 ^ e ≤ t
    · have hL : ∀ i < 2 ^ e, lowBits (2 ^ e) (2 * 2 ^ e) v i = false := fun i hi => by rw [hlow i hi]; omega
      have hH : TwoRuns (2 ^ e) (t - 2 ^ e) (n - 2 ^ e) s (highBits (2 ^ e) v) := fun i hi => by
        rw [hhigh i hi]; omega
      rw [if_pos h1, ih (by omega) (by omega) (by omega) (by omega) hH]
      exact ⟨fun h => h.2.1, fun h => ⟨hconst false _ hL, h, .inl hL⟩⟩
    by_cases h2 : 2 ^ e ≤ n
    · rw [if_neg h1, if_pos h2]
      by_cases h3 : t ≤ n - 2 ^ e
      · have hH : ∀ i < 2 ^ e, highBits (2 ^ e) v i = true := fun i hi => by
          rw [← Bool.not_eq_false, hhigh i hi]; omega
        have hL : TwoRuns (2 ^ e) t (n - 2 ^ e) s (lowBits (2 ^ e) (2 * 2 ^ e) v) := fun i hi => by
          rw [hlow i hi]; omega
        rw [decide_eq_true h3, Bool.true_and, ih (by omega) (by omega) h3 (by omega) hL]
        exact ⟨fun h => h.1, fun h => ⟨h, hconst true _ hH, .inr hH⟩⟩
      · rw [decide_eq_false h3, Bool.false_and]
        refine iff_of_false (fun ⟨_, _, h⟩ => ?_) Bool.false_ne_true
        rcases h with h | h
        · have := (hlow (2 ^ e - 1) (by omega)).mp (h _ (by omega)); omega
        · exact absurd (h (n - 2 ^ e) (by omega)) (by rw [Bool.not_eq_true, hhigh _ (by omega)]; omega)
    · rw [if_neg h1, if_neg h2]
      by_cases h3 : n + s ≤ 2 ^ e
      · have hH : ∀ i < 2 ^ e, highBits (2 ^ e) v i = true := fun i hi => by
          rw [← Bool.not_eq_false, hhigh i hi]; omega
        have hL : TwoRuns (2 ^ e) t n s (lowBits (2 ^ e) (2 * 2 ^ e) v) := fun i hi => by rw [hlow i hi]; omega
        rw [if_pos h3, ih (by omega) (by omega) ht h3 hL]
        exact ⟨fun h => h.1, fun h => ⟨h, hconst true _ hH, .inr hH⟩⟩
      rw [if_neg h3]
      by_cases h4 : 2 ^ e ≤ s
      · have hL : ∀ i < 2 ^ e, lowBits (2 ^ e) (2 * 2 ^ e) v i = false := fun i hi => by rw [hlow i hi]; omega
        have hH : TwoRuns (2 ^ e) t n (s - 2 ^ e) (highBits (2 ^ e) v) := fun i hi => by rw [hhigh i hi]; omega
        rw [decide_eq_true h4, Bool.true_and, ih (by omega) (by omega) ht (by omega) hH]
        exact ⟨fun h => h.2.1, fun h => ⟨hconst false _ hL, h, .inl hL⟩⟩
      · rw [decide_eq_false h4, Bool.false_and]
        refine iff_of_false (fun ⟨_, _, h⟩ => ?_) Bool.false_ne_true
        rcases h with h | h
        · have := (hlow (n - 1) (by omega)).mp (h _ (by omega)); omega
        · exact absurd (h 0 (by omega)) (by rw [Bool.not_eq_true, hhigh _ (by omega)]; omega)

/-- **The merger on two halves** of which the lower is in order, when their length `n` is no power of two: the first layer
must meet no `false` of the second half, and the merger below it must put the two runs in order. -/
theorem mergeNet_twoHalves {split : Nat → Nat} (hs : Halves split N) {e f : Nat} (hlt : n < 2 ^ e) (hgt : 2 ^ e < n * 2)
    (hf : n * 2 ≤ f) (hN : n * 2 ≤ N) (h0 : 0 < t) (ht : t < n) (hsn : s ≤ n) (hv : TwoRuns (n * 2) t n s v) :
    Ascending (n * 2) (run gt (mergeNet split true f (n * 2)) v) ↔ n + s ≤ 2 ^ e ∧ mergesTwoRuns e t n s = true := by
  have hm : split (n * 2) = 2 ^ e := by
    obtain ⟨e', he, h1, h2⟩ := hs (n * 2) (by omega) hN
    have h3 : e' < e + 1 := (Nat.pow_lt_pow_iff_right (a := 2) (by omega)).mp (by rw [pow_succ']; omega)
    have h4 : e < e' + 1 := (Nat.pow_lt_pow_iff_right (a := 2) (by omega)).mp (by rw [pow_succ']; omega)
    rw [he, show e' = e by omega]
  obtain ⟨f, rfl⟩ : ∃ g, f = g + 1 := ⟨f - 1, by omega⟩
  have hstep := mergeNet_step hs (f := f) (v := v) (n := n * 2) (by omega) hN
  rw [hm] at hstep
  rw [hstep]
  by_cases h1 : n + s ≤ 2 ^ e
  · have hH : ∀ i < n * 2 - 2 ^ e, highBits (2 ^ e) v i = true := fun i hi => by
      rw [← Bool.not_eq_false, highBits_false, hv i (by omega), hv (i + 2 ^ e) (by omega)]; omega
    have hL : TwoRuns (2 ^ e) t n s (lowBits (2 ^ e) (n * 2) v) := fun i hi => by
      rw [lowBits_false, hv i (by omega)]
      constructor
      · rintro (h | ⟨h, h'⟩)
        · exact h
        · rw [hv (i + 2 ^ e) (by omega)] at h'; omega
      · exact .inl
    have hhigh : Ascending (n * 2 - 2 ^ e) (run gt (mergeNet split true f (n * 2 - 2 ^ e)) (highBits (2 ^ e) v)) :=
      mergeNet_run hs (by omega) (by omega) ⟨0, 0, fun i hi => by rw [hH i hi]; simp⟩
    rw [mergeNet_twoRuns hs (by omega) (by omega) ht.le h1 hL]
    exact ⟨fun h => ⟨h1, h.1⟩, fun h => ⟨h.2, hhigh, .inr hH⟩⟩
  · refine iff_of_false (fun ⟨_, _, h⟩ => ?_) fun h => h1 h.1
    rcases h with h | h
    · have := (lowBits_false v (n - 1)).mp (h (n - 1) (by omega))
      rw [hv (n - 1) (by omega)] at this
      rcases this with this | ⟨h2, h3⟩
      · omega
      · rw [hv _ (by omega)] at h3; omega
    · apply absurd (h 0 (by omega))
      rw [Bool.not_eq_true, highBits_false, hv 0 (by omega), hv (0 + 2 ^ e) (by omega)]; omega

/-- **The merger on a `false` at the left end**, when the half `n` is no power of two and starts with `true`: if the first
layer meets a `false` in the wire paired with the left end, one of the two stays behind the `true`. -/
theorem mergeNet_cutOff {split : Nat → Nat} (hs : Halves split N) {f : Nat} (hpo2 : ∀ e, n ≠ 2 ^ e) (h0 : 0 < n)
    (hf : n * 2 ≤ f) (hN : n * 2 ≤ N) (hleft : v 0 = false) (hmiddle : v n = true) (hright : v (split (n * 2)) = false) :
    ¬Ascending (n * 2) (run gt (mergeNet split true f (n * 2)) v) := by
  obtain ⟨e, he, h1, h2⟩ := hs (n * 2) (by omega) hN
  have hm : n < split (n * 2) := by
    have hne := hpo2 e
    omega
  obtain ⟨f, rfl⟩ : ∃ g, f = g + 1 := ⟨f - 1, by omega⟩
  rw [mergeNet_step hs (by omega) hN]
  rintro ⟨-, -, hlow | hhigh⟩
  · rcases (lowBits_false v n).mp (hlow n hm) with hn | ⟨hn, -⟩
    · rw [hmiddle] at hn
      exact absurd hn (by decide)
    · omega
  · have hcut : highBits (split (n * 2)) v 0 = false :=
      (highBits_false v 0).mpr ⟨hleft, by rw [Nat.zero_add]; exact hright⟩
    exact absurd (hhigh 0 (by omega)) (by rw [hcut]; decide)

end FOSketch.Network
