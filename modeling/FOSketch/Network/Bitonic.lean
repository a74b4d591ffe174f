import FOSketch.Network.Basic

/-!
# The bitonic network of arbitrary length

The merger of length `n` compares the wires `i` and `i + m`, `m` a power of two with `m < n ≤ 2 * m`, and then merges
the first `m` wires and the remaining `n - m` apart. On bits the argument is about runs: a sequence whose `false`
values, or whose `true` values, form one run is split by the first layer into two such sequences, of which the lower is
constantly `false` or the upper constantly `true` (`layer_low`, `layer_high`, `layer_const`). A power of two merges
either kind of run; any other length merges a run of `false` values, and its upper part is again of that kind.
-/

namespace FOSketch.Network

/-! ## Layers -/

section Layer
variable {α : Type*} [LinearOrder α]

/-- The comparators on the wires `i` and `i + m`, `i < k`. -/
def layer (k m : Nat) (up : Bool) : List Comparator := (List.range k).map fun i => ⟨i, i + m, up⟩

theorem layer_below {k m n : Nat} (up : Bool) (hm : 0 < m) (hn : k + m ≤ n) : Below n (layer k m up) := by
  intro c hc
  obtain ⟨i, hi, rfl⟩ := List.mem_map.mp hc
  rw [List.mem_range] at hi
  exact ⟨by dsimp only; omega, by dsimp only; omega, by dsimp only; omega⟩

theorem layer_succ (k m : Nat) (up : Bool) : layer (k + 1) m up = layer k m up ++ [⟨k, k + m, up⟩] := by
  simp [layer, List.range_succ]

theorem layer_flip (k m : Nat) (up : Bool) : (layer k m up).map Comparator.flip = layer k m (!up) := by
  simp only [layer, List.map_map]; rfl

/-- A layer whose two sides do not overlap puts the minima on its low side and the maxima on its high side. -/
theorem run_layer {k m : Nat} (hkm : k ≤ m) (v : Nat → α) (x : Nat) :
    run gt (layer k m true) v x =
      if x < k then min (v x) (v (x + m)) else if m ≤ x ∧ x < k + m then max (v (x - m)) (v x) else v x := by
  induction k generalizing x with
  | zero => rw [if_neg (Nat.not_lt_zero x), if_neg (by omega)]; rfl
  | succ k ih =>
    have ih := ih (by omega)
    have hlo : run gt (layer k m true) v k = v k := by rw [ih k, if_neg (lt_irrefl k), if_neg (by omega)]
    have hhi : run gt (layer k m true) v (k + m) = v (k + m) := by rw [ih (k + m), if_neg (by omega), if_neg (by omega)]
    rw [layer_succ, run_append, run_cons, run_nil, step_up, hlo, hhi, ih x]
    by_cases h1 : x = k
    · rw [if_pos h1, if_pos (by omega), h1]
    rw [if_neg h1]
    by_cases h2 : x = k + m
    · rw [if_pos h2, if_neg (by omega), if_pos (by omega), h2, Nat.add_sub_cancel]
    rw [if_neg h2]
    by_cases h3 : x < k
    · rw [if_pos h3, if_pos (by omega)]
    rw [if_neg h3, if_neg (show ¬ x < k + 1 by omega)]
    by_cases h4 : m ≤ x ∧ x < k + m
    · rw [if_pos h4, if_pos (by omega)]
    · rw [if_neg h4, if_neg (by omega)]

end Layer

/-- Two networks side by side, the second moved behind the first. -/
theorem run_beside {α : Type*} (gt : α → α → Bool) {m : Nat} {cs : List Comparator} (hcs : Below m cs)
    (ds : List Comparator) (v : Nat → α) (k : Nat) :
    run gt (cs ++ ds.map (Comparator.move (· + m))) v k =
      if k < m then run gt cs v k else run gt ds (fun i => v (i + m)) (k - m) := by
  rw [run_append]
  split_ifs with hk
  · exact run_move_frame gt ds _ (fun i hi => by omega)
  · obtain ⟨i, rfl⟩ : ∃ i, k = i + m := ⟨k - m, by omega⟩
    rw [run_move_apply gt (φ := (· + m)) (fun a b h => Nat.add_right_cancel h), Nat.add_sub_cancel]
    congr 1
    funext j
    exact run_frame gt hcs v (Nat.le_add_left m j)

/-! ## The networks -/

/-- The merger of length `n`. The recursion is on the first argument, for which any value from `n` on does. -/
def mergeNet (split : Nat → Nat) (up : Bool) : Nat → Nat → List Comparator
  | 0, _ => []
  | f + 1, n =>
    if 1 < n then
      layer (n - split n) (split n) up ++
        (mergeNet split up f (split n) ++ (mergeNet split up f (n - split n)).map (Comparator.move (· + split n)))
    else []

/-- The sorter of length `n`: sort the halves in opposite directions and merge. -/
def sortNet (split : Nat → Nat) : Bool → Nat → Nat → List Comparator
  | _, 0, _ => []
  | up, f + 1, n =>
    if 1 < n then
      (sortNet split (!up) f (n / 2) ++ (sortNet split up f (n - n / 2)).map (Comparator.move (· + n / 2))) ++
        mergeNet split up n n
    else []

/-- `split n` is the greatest power of two below `n`. -/
def Halves (split : Nat → Nat) (N : Nat) : Prop :=
  ∀ n, 1 < n → n ≤ N → ∃ e, split n = 2 ^ e ∧ 2 ^ e < n ∧ n ≤ 2 * 2 ^ e

theorem Halves.mono {split : Nat → Nat} {M N : Nat} (h : Halves split N) (hMN : M ≤ N) : Halves split M :=
  fun n h1 hn => h n h1 (hn.trans hMN)

theorem Halves.split_two_pow {split : Nat → Nat} {N e : Nat} (h : Halves split N) (he : 2 ^ (e + 1) ≤ N) :
    split (2 ^ (e + 1)) = 2 ^ e := by
  obtain ⟨e', hs, h1, h2⟩ := h (2 ^ (e + 1)) (Nat.one_lt_two_pow (by omega)) he
  rw [← pow_succ'] at h2
  have h3 : e' < e + 1 := (Nat.pow_lt_pow_iff_right (by omega)).mp h1
  have h4 : e + 1 ≤ e' + 1 := (Nat.pow_le_pow_iff_right (by omega)).mp h2
  rw [hs, show e' = e by omega]

theorem mergeNet_below (split : Nat → Nat) (up : Bool) {N : Nat} (hs : Halves split N) (f n : Nat) (hn : n ≤ N) :
    Below n (mergeNet split up f n) := by
  induction f generalizing n with
  | zero => exact below_nil n
  | succ f ih =>
    unfold mergeNet
    split_ifs with h
    · obtain ⟨e, he, h1, h2⟩ := hs n h hn
      have hpos := Nat.two_pow_pos e
      rw [he]
      exact (layer_below up hpos (by omega)).append (((ih _ (by omega)).mono (by omega)).append
        ((ih _ (by omega)).move (fun a b hab => Nat.add_right_cancel hab) (fun k hk => by omega)))
    · exact below_nil n

theorem mergeNet_flip (split : Nat → Nat) (up : Bool) (f n : Nat) :
    (mergeNet split up f n).map Comparator.flip = mergeNet split (!up) f n := by
  induction f generalizing n with
  | zero => rfl
  | succ f ih =>
    unfold mergeNet
    split_ifs with h
    · rw [List.map_append, List.map_append, layer_flip, ih, ← ih (n - split n)]
      simp only [List.map_map]; rfl
    · rfl

theorem sortNet_below (split : Nat → Nat) (up : Bool) {N : Nat} (hs : Halves split N) (f n : Nat) (hn : n ≤ N) :
    Below n (sortNet split up f n) := by
  induction f generalizing n up with
  | zero => exact below_nil n
  | succ f ih =>
    unfold sortNet
    split_ifs with h
    · exact (((ih (!up) _ (by omega)).mono (by omega)).append ((ih up _ (by omega)).move
        (fun a b hab => Nat.add_right_cancel hab) (fun k hk => by omega))).append (mergeNet_below split up hs n n hn)
    · exact below_nil n

/-! ## Runs of bits -/

/-- The positions below `n` where `v` is `x` form one run. -/
def OneRun (x : Bool) (n : Nat) (v : Nat → Bool) : Prop := ∃ p q, ∀ k < n, v k = x ↔ p ≤ k ∧ k < q

theorem ascending_bits {n : Nat} {v : Nat → Bool} : Ascending n v ↔ ∃ p ≤ n, ∀ k < n, v k = true ↔ p ≤ k := by
  constructor
  · induction n with
    | zero => exact fun _ => ⟨0, le_refl 0, fun k hk => absurd hk (Nat.not_lt_zero k)⟩
    | succ n ih =>
      intro h
      obtain ⟨p, hp, hv⟩ := ih fun i j hij hj => h i j hij (by omega)
      cases hn : v n with
      | false =>
        refine ⟨n + 1, le_refl _, fun k hk => ⟨fun hk' => absurd (h k n (by omega) (by omega)) ?_, by omega⟩⟩
        rw [hk', hn]; decide
      | true =>
        refine ⟨p, by omega, fun k hk => ?_⟩
        rcases Nat.lt_succ_iff_lt_or_eq.mp hk with hk | rfl
        · exact hv k hk
        · exact ⟨fun _ => hp, fun _ => hn⟩
  · rintro ⟨p, -, hv⟩ i j hij hj
    rw [Bool.le_iff_imp]
    intro hi
    exact (hv j hj).mpr (((hv i (by omega)).mp hi).trans hij)

/-- A lower and an upper part side by side are in order when each is and one of them is constant at the right end. -/
theorem ascending_beside {m n : Nat} {v w : Nat → Bool} (hmn : m ≤ n) :
    Ascending n (fun k => if k < m then v k else w (k - m)) ↔ Ascending m v ∧ Ascending (n - m) w ∧
      ((∀ k < m, v k = false) ∨ (∀ k < n - m, w k = true)) := by
  constructor
  · intro h
    refine ⟨fun i j hij hj => ?_, fun i j hij hj => ?_, ?_⟩
    · have := h i j hij (by omega)
      simp only [if_pos hj, if_pos (hij.trans_lt hj)] at this
      exact this
    · have := h (i + m) (j + m) (by omega) (by omega)
      simp only [if_neg (show ¬i + m < m by omega), if_neg (show ¬j + m < m by omega), Nat.add_sub_cancel] at this
      exact this
    · by_contra hnot
      rw [not_or] at hnot
      push Not at hnot
      obtain ⟨⟨i, hi, hvi⟩, j, hj, hwj⟩ := hnot
      have := h i (j + m) (by omega) (by omega)
      simp only [if_pos hi, if_neg (show ¬j + m < m by omega), Nat.add_sub_cancel] at this
      rw [Bool.eq_true_of_not_eq_false hvi, Bool.eq_false_of_not_eq_true hwj] at this
      exact absurd this (by decide)
  · rintro ⟨hv, hw, h⟩ i j hij hj
    dsimp only
    by_cases hjm : j < m
    · rw [if_pos hjm, if_pos (by omega)]; exact hv i j hij hjm
    · rw [if_neg hjm]
      split_ifs with him
      · rcases h with h | h
        · rw [h i him]; exact Bool.false_le _
        · rw [h (j - m) (by omega)]; exact Bool.le_true _
      · exact hw (i - m) (j - m) (by omega) (by omega)

/-! ## The first layer on a run -/

section Clean
variable {m n : Nat} (v : Nat → Bool)

def lowBits (m n : Nat) (v : Nat → Bool) (i : Nat) : Bool := if i < n - m then v i && v (i + m) else v i

def highBits (m : Nat) (v : Nat → Bool) (i : Nat) : Bool := v i || v (i + m)

theorem layer_low (hn : n ≤ 2 * m) (i : Nat) (hi : i < m) :
    run gt (layer (n - m) m true) v i = lowBits m n v i := by
  rw [run_layer (by omega), lowBits]
  split_ifs
  · rfl
  · omega
  · rfl

theorem layer_high (hn : n ≤ 2 * m) (i : Nat) (hi : i < n - m) :
    run gt (layer (n - m) m true) v (i + m) = highBits m v i := by
  rw [run_layer (by omega), if_neg (by omega), if_pos (by omega), Nat.add_sub_cancel]
  rfl

theorem lowBits_false (i : Nat) :
    lowBits m n v i = false ↔ v i = false ∨ (i < n - m ∧ v (i + m) = false) := by
  unfold lowBits
  split_ifs with h
  · rw [Bool.and_eq_false_iff, and_iff_right h]
  · simp [h]

theorem highBits_false (i : Nat) : highBits m v i = false ↔ v i = false ∧ v (i + m) = false := by
  simp [highBits]

theorem lowBits_true (hn : n = 2 * m) (i : Nat) (hi : i < m) :
    lowBits m n v i = true ↔ v i = true ∧ v (i + m) = true := by
  rw [lowBits, if_pos (by omega), Bool.and_eq_true]

theorem highBits_true (i : Nat) : highBits m v i = true ↔ v i = true ∨ v (i + m) = true := by
  simp [highBits]

variable {v}

/-- A run of `false` values: its lower part is a run of some value. -/
theorem OneRun.low (h : OneRun false n v) (hmn : m ≤ n) : ∃ y, OneRun y m (lowBits m n v) := by
  obtain ⟨p, q, h⟩ := h
  have key : ∀ i < m, lowBits m n v i = false ↔ (p ≤ i ∧ i < q) ∨ (i < n - m ∧ p ≤ i + m ∧ i + m < q) := by
    intro i hi
    rw [lowBits_false, h i (by omega)]
    refine or_congr_right (and_congr_right fun hi' => h (i + m) (by omega))
  by_cases h1 : q ≤ m
  · exact ⟨false, p, q, fun i hi => by rw [key i hi]; omega⟩
  by_cases h2 : m ≤ p
  · exact ⟨false, p - m, min q n - m, fun i hi => by rw [key i hi]; omega⟩
  · refine ⟨true, min q n - m, p, fun i hi => ?_⟩
    rw [← Bool.not_eq_false, key i hi]; omega

/-- A run of `false` values: its upper part is a run of `false` values. -/
theorem OneRun.high (h : OneRun false n v) : OneRun false (n - m) (highBits m v) := by
  obtain ⟨p, q, h⟩ := h
  refine ⟨p, q - m, fun i hi => ?_⟩
  rw [highBits_false, h i (by omega), h (i + m) (by omega)]; omega

/-- A run of `false` values: its lower part is constantly `false` or its upper part constantly `true`. -/
theorem OneRun.const (h : OneRun false n v) (hmn : m ≤ n) (hn : n ≤ 2 * m) :
    (∀ i < m, lowBits m n v i = false) ∨ (∀ i < n - m, highBits m v i = true) := by
  obtain ⟨p, q, h⟩ := h
  by_cases hpq : p < n - m ∧ p + m < q
  · refine .inl fun i hi => (lowBits_false v i).mpr ?_
    by_cases hip : p ≤ i
    · exact .inl ((h i (by omega)).mpr (by omega))
    · exact .inr ⟨by omega, (h (i + m) (by omega)).mpr (by omega)⟩
  · refine .inr fun i hi => ?_
    rw [← Bool.not_eq_false, highBits_false, h i (by omega), h (i + m) (by omega)]; omega

/-- The same three facts for a run of `true` values of even length. -/
theorem OneRun.halves (h : OneRun true n v) (hn : n = 2 * m) :
    (∃ y, OneRun y m (lowBits m n v)) ∧ (∃ z, OneRun z m (highBits m v)) ∧
      ((∀ i < m, lowBits m n v i = false) ∨ (∀ i < n - m, highBits m v i = true)) := by
  obtain ⟨p, q, h⟩ := h
  have hlow : ∀ i < m, lowBits m n v i = true ↔ p ≤ i ∧ i + m < q := by
    intro i hi
    rw [lowBits_true v hn i hi, h i (by omega), h (i + m) (by omega)]; omega
  have hhigh : ∀ i < m, highBits m v i = true ↔ (p ≤ i ∧ i < q) ∨ (p ≤ i + m ∧ i + m < q) := by
    intro i hi
    rw [highBits_true, h i (by omega), h (i + m) (by omega)]
  refine ⟨⟨true, p, q - m, fun i hi => by rw [hlow i hi]; omega⟩, ?_, ?_⟩
  · by_cases h1 : q ≤ m
    · exact ⟨true, p, q, fun i hi => by rw [hhigh i hi]; omega⟩
    by_cases h2 : m ≤ p
    · exact ⟨true, p - m, q - m, fun i hi => by rw [hhigh i hi]; omega⟩
    · refine ⟨false, q - m, p, fun i hi => ?_⟩
      rw [← Bool.not_eq_true, hhigh i hi]; omega
  · by_cases hpq : p < m ∧ p + m < q
    · exact .inr fun i hi => (hhigh i (by omega)).mpr (by omega)
    · refine .inl fun i hi => ?_
      rw [← Bool.not_eq_true, hlow i hi]; omega

end Clean

/-! ## Merging -/

section Merge
variable {split : Nat → Nat} {N : Nat}

/-- The merger of length `n` sorts `v` when its halves sort what the first layer leaves, and that is constant at the
right end on one side. -/
theorem mergeNet_step (hs : Halves split N) {f n : Nat} (h1 : 1 < n) (hn : n ≤ N) {v : Nat → Bool} :
    Ascending n (run gt (mergeNet split true (f + 1) n) v) ↔
      Ascending (split n) (run gt (mergeNet split true f (split n)) (lowBits (split n) n v)) ∧
      Ascending (n - split n) (run gt (mergeNet split true f (n - split n)) (highBits (split n) v)) ∧
      ((∀ i < split n, lowBits (split n) n v i = false) ∨
        (∀ i < n - split n, highBits (split n) v i = true)) := by
  obtain ⟨e, he, hlt, hle⟩ := hs n h1 hn
  have hb1 := mergeNet_below split true hs f (split n) (by omega)
  have hb2 := mergeNet_below split true hs f (n - split n) (by omega)
  have el := run_congr gt hb1 (fun i hi => layer_low v (n := n) (by omega) i hi)
  have eh := run_congr gt hb2 (v := fun i => run gt (layer (n - split n) (split n) true) v (i + split n))
    (fun i hi => layer_high v (by omega) i hi)
  conv_lhs => unfold mergeNet
  rw [if_pos h1, run_append, ascending_congr (fun k _ => run_beside gt hb1 _ _ k), ascending_beside (by omega),
    ascending_congr el, ascending_congr eh]
  refine and_congr_right fun _ => and_congr_right fun _ => or_congr ?_ ?_
  · exact (forall₂_congr fun k hk => by rw [el k hk]).trans (run_forall_iff gt hb1 (P := (· = false)))
  · exact (forall₂_congr fun k hk => by rw [eh k hk]).trans (run_forall_iff gt hb2 (P := (· = true)))

/-- **A merger whose length is a power of two** sorts a run of either value. -/
theorem mergeNet_two_pow (hs : Halves split N) {e f : Nat} (hf : 2 ^ e ≤ f) (hN : 2 ^ e ≤ N) {v : Nat → Bool}
    (hv : ∃ x, OneRun x (2 ^ e) v) : Ascending (2 ^ e) (run gt (mergeNet split true f (2 ^ e)) v) := by
  induction e generalizing f v with
  | zero => intro i j hij hj; simp only [pow_zero, Nat.lt_one_iff] at hj; subst hj; rw [Nat.le_zero.mp hij]
  | succ e ih =>
    have hm := hs.split_two_pow hN
    have h2 : 2 ^ (e + 1) = 2 * 2 ^ e := pow_succ' 2 e
    have hpos := Nat.two_pow_pos e
    obtain ⟨f, rfl⟩ : ∃ g, f = g + 1 := ⟨f - 1, by omega⟩
    have hsub : 2 ^ (e + 1) - 2 ^ e = 2 ^ e := by omega
    have hparts : (∃ y, OneRun y (2 ^ e) (lowBits (2 ^ e) (2 ^ (e + 1)) v)) ∧
        (∃ z, OneRun z (2 ^ e) (highBits (2 ^ e) v)) ∧
        ((∀ i < 2 ^ e, lowBits (2 ^ e) (2 ^ (e + 1)) v i = false) ∨
          (∀ i < 2 ^ (e + 1) - 2 ^ e, highBits (2 ^ e) v i = true)) := by
      obtain ⟨x, hx⟩ := hv
      cases x with
      | false => exact ⟨hx.low (by omega), ⟨false, by simpa [hsub] using hx.high (m := 2 ^ e)⟩,
          hx.const (by omega) (by omega)⟩
      | true => exact hx.halves h2
    obtain ⟨hlow, hhigh, hconst⟩ := hparts
    refine (mergeNet_step hs (by omega) hN).mpr ⟨?_, ?_, ?_⟩
    · rw [hm]; exact ih (by omega) (by omega) hlow
    · rw [hm, hsub]; exact ih (by omega) (by omega) hhigh
    · rw [hm]; exact hconst

/-- **The merger of any length** sorts a run of `false` values. -/
theorem mergeNet_run (hs : Halves split N) {f n : Nat} (hf : n ≤ f) (hN : n ≤ N) {v : Nat → Bool}
    (hv : OneRun false n v) : Ascending n (run gt (mergeNet split true f n) v) := by
  induction f generalizing n v with
  | zero => intro i j hij hj; omega
  | succ f ih =>
    by_cases h1 : 1 < n
    · obtain ⟨e, he, hlt, hle⟩ := hs n h1 hN
      have hpos := Nat.two_pow_pos e
      refine (mergeNet_step hs h1 hN).mpr ⟨?_, ih (by omega) (by omega) hv.high, ?_⟩
      · rw [he]; exact mergeNet_two_pow hs (by omega) (by omega) (hv.low (by omega))
      · rw [he]; exact hv.const (by omega) (by omega)
    · intro i j hij hj
      rw [show i = j by omega]

end Merge

/-! ## Values of a linear order -/

section Order
variable {α : Type*} [LinearOrder α] {split : Nat → Nat} {N : Nat}

/-- A sequence that does not increase before some position and does not decrease from there on. -/
def Valley (n : Nat) (v : Nat → α) : Prop :=
  ∃ t ≤ n, Descending t v ∧ ∀ i j, t ≤ i → i ≤ j → j < n → v i ≤ v j

theorem Valley.oneRun {n : Nat} {v : Nat → α} (h : Valley n v) (x : α) : OneRun false n (threshold x v) := by
  obtain ⟨t, ht, hd, ha⟩ := h
  have hdown : Ascending t fun k => !threshold x v k := by
    intro i j hij hj
    have hle : threshold x v j ≤ threshold x v i := threshold_monotone x (hd i j hij hj)
    dsimp only
    cases hi : threshold x v i with
    | false => rw [hi] at hle; rw [le_bot_iff.mp hle]; exact le_refl _
    | true => exact Bool.false_le _
  have hup : Ascending (n - t) fun k => threshold x v (k + t) := fun i j hij hj =>
    threshold_monotone x (ha (i + t) (j + t) (by omega) (by omega) (by omega))
  obtain ⟨p, hp, hp'⟩ := ascending_bits.mp hdown
  obtain ⟨q, hq, hq'⟩ := ascending_bits.mp hup
  refine ⟨p, q + t, fun k hk => ?_⟩
  by_cases hkt : k < t
  · have := hp' k hkt
    rw [Bool.not_eq_true'] at this
    rw [this]; omega
  · have := hq' (k - t) (by omega)
    rw [Nat.sub_add_cancel (by omega)] at this
    rw [← Bool.not_eq_true, this]; omega

/-- **The upward merger** sorts every valley. -/
theorem mergeNet_ascending (hs : Halves split N) {f n : Nat} (hf : n ≤ f) (hN : n ≤ N) {v : Nat → α}
    (hv : Valley n v) : Ascending n (run gt (mergeNet split true f n) v) :=
  (zero_one _ n v).mpr fun t => mergeNet_run hs hf hN (hv.oneRun t)

theorem mergeNet_descending (hs : Halves split N) {f n : Nat} (hf : n ≤ f) (hN : n ≤ N) {v : Nat → α}
    (hv : Valley n (OrderDual.toDual ∘ v)) : Descending n (run gt (mergeNet split false f n) v) := by
  rw [show false = !true from rfl, ← mergeNet_flip split true, descending_run_flip]
  exact mergeNet_ascending hs hf hN hv

/-- Whatever the order is, the upward merger puts a least value first. -/
theorem mergeNet_first (hs : Halves split N) {f n : Nat} (hf : n ≤ f) (hN : n ≤ N) (v : Nat → α) {k : Nat} (hk : k < n) :
    run gt (mergeNet split true f n) v 0 ≤ v k := by
  induction f generalizing n v k with
  | zero => omega
  | succ f ih =>
    unfold mergeNet
    by_cases h1 : 1 < n
    · obtain ⟨e, he, hlt, hle⟩ := hs n h1 hN
      have hpos := Nat.two_pow_pos e
      have hbelow := mergeNet_below split true hs f (split n) (by omega)
      rw [if_pos h1, run_append, run_beside gt hbelow, if_pos (by omega)]
      by_cases hlow : k < split n
      · refine (ih (by omega) (by omega) _ hlow).trans ?_
        rw [run_layer (by omega)]
        split_ifs
        · exact min_le_left _ _
        · omega
        · exact le_rfl
      · refine (ih (by omega) (by omega) _ (show k - split n < split n by omega)).trans ?_
        rw [run_layer (by omega), if_pos (by omega), Nat.sub_add_cancel (by omega)]
        exact min_le_right _ _
    · rw [if_neg h1, run_nil, show k = 0 by omega]

/-- **The sorter** sorts every sequence, in the direction asked for. -/
theorem sortNet_sorts (hs : Halves split N) {f n : Nat} (hf : n ≤ f) (hN : n ≤ N) (v : Nat → α) :
    Ascending n (run gt (sortNet split true f n) v) ∧ Descending n (run gt (sortNet split false f n) v) := by
  induction f generalizing n v with
  | zero => exact ⟨fun i j _ hj => by omega, fun i j _ hj => by omega⟩
  | succ f ih =>
    unfold sortNet
    by_cases h1 : 1 < n
    · have hvalley : ∀ up, ∀ k, run gt (sortNet split (!up) f (n / 2) ++
          (sortNet split up f (n - n / 2)).map (Comparator.move (· + n / 2))) v k =
          if k < n / 2 then run gt (sortNet split (!up) f (n / 2)) v k
          else run gt (sortNet split up f (n - n / 2)) (fun i => v (i + n / 2)) (k - n / 2) := fun up k =>
        run_beside gt (sortNet_below split (!up) hs f (n / 2) (by omega)) _ v k
      have hlo := ih (n := n / 2) (by omega) (by omega) v
      have hhi := ih (n := n - n / 2) (by omega) (by omega) fun i => v (i + n / 2)
      rw [if_pos h1, if_pos h1, run_append _ (_ ++ _), run_append _ (_ ++ _)]
      refine ⟨mergeNet_ascending hs (le_refl n) hN ⟨n / 2, by omega, fun i j hij hj => ?_, fun i j hi hij hj => ?_⟩,
        mergeNet_descending hs (le_refl n) hN ⟨n / 2, by omega, fun i j hij hj => ?_, fun i j hi hij hj => ?_⟩⟩
      · rw [hvalley true, hvalley true, if_pos hj, if_pos (by omega)]
        exact hlo.2 i j hij hj
      · rw [hvalley true, hvalley true, if_neg (by omega), if_neg (by omega)]
        exact hhi.1 _ _ (by omega) (by omega)
      · simp only [Function.comp_apply]
        rw [hvalley false, hvalley false, if_pos hj, if_pos (by omega)]
        exact hlo.1 i j hij hj
      · simp only [Function.comp_apply]
        rw [hvalley false, hvalley false, if_neg (by omega), if_neg (by omega)]
        exact hhi.2 _ _ (by omega) (by omega)
    · rw [if_neg h1, if_neg h1]
      constructor <;> intro i j hij hj <;> rw [show i = j by omega]

end Order

end FOSketch.Network
