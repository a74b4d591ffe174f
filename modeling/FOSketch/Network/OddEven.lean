import FOSketch.Network.Bitonic

/-!
# Batcher's odd-even merge network

The merger of `2 ^ e` wires merges the even wires, merges the odd wires, and compares each odd wire with its right
neighbour. On bits whose halves begin with `a` and `b` values `false` the even wires hold `(a + 1) / 2 + (b + 1) / 2`
of them and the odd wires `a / 2 + b / 2`, two counts that differ by at most two; the last comparators repair the one
place where that shows (`oddEvenMerge_bits`).
-/

namespace FOSketch.Network

/-- The comparators on the wires `2 * t + 1` and `2 * t + 2`, `t < k`. -/
def neighbours (k : Nat) : List Comparator := (List.range k).map fun t => ⟨2 * t + 1, 2 * t + 2, true⟩

def oddEvenMergeNet : Nat → List Comparator
  | 0 => []
  | 1 => [⟨0, 1, true⟩]
  | e + 2 =>
    ((oddEvenMergeNet (e + 1)).map (Comparator.move (2 * ·)) ++
      (oddEvenMergeNet (e + 1)).map (Comparator.move (2 * · + 1))) ++ neighbours (2 ^ (e + 1) - 1)

def oddEvenSortNet : Nat → List Comparator
  | 0 => []
  | e + 1 => (oddEvenSortNet e ++ (oddEvenSortNet e).map (Comparator.move (· + 2 ^ e))) ++ oddEvenMergeNet (e + 1)

theorem neighbours_succ (k : Nat) : neighbours (k + 1) = neighbours k ++ [⟨2 * k + 1, 2 * k + 2, true⟩] := by
  simp [neighbours, List.range_succ]

theorem neighbours_below {k n : Nat} (h : 2 * k + 1 ≤ n) : Below n (neighbours k) := by
  intro c hc
  obtain ⟨t, ht, rfl⟩ := List.mem_map.mp hc
  rw [List.mem_range] at ht
  exact ⟨by dsimp only; omega, by dsimp only; omega, by dsimp only; omega⟩

theorem double_injective : Function.Injective (2 * · : Nat → Nat) := fun a b h => by dsimp only at h; omega

theorem double_succ_injective : Function.Injective (2 * · + 1 : Nat → Nat) := fun a b h => by dsimp only at h; omega

theorem oddEvenMergeNet_below (e : Nat) : Below (2 ^ e) (oddEvenMergeNet e) := by
  induction e using oddEvenMergeNet.induct with
  | case1 => exact below_nil _
  | case2 => intro c hc; rw [oddEvenMergeNet, List.mem_singleton] at hc; subst hc; decide
  | case3 e ih =>
    have h2 : 2 ^ (e + 2) = 2 * 2 ^ (e + 1) := pow_succ' 2 (e + 1)
    have hpos := Nat.two_pow_pos (e + 1)
    exact ((ih.move double_injective (fun k hk => by omega)).append
      (ih.move double_succ_injective (fun k hk => by omega))).append (neighbours_below (by omega))

theorem oddEvenSortNet_below (e : Nat) : Below (2 ^ e) (oddEvenSortNet e) := by
  induction e with
  | zero => exact below_nil _
  | succ e ih =>
    have h2 : 2 ^ (e + 1) = 2 * 2 ^ e := pow_succ' 2 e
    exact ((ih.mono (by omega)).append (ih.move (fun a b h => Nat.add_right_cancel h) (fun k hk => by omega))).append
      (oddEvenMergeNet_below (e + 1))

section Order
variable {α : Type*} [LinearOrder α]

theorem run_neighbours (k : Nat) (v : Nat → α) :
    (∀ t, run gt (neighbours k) v (2 * t + 1) = if t < k then min (v (2 * t + 1)) (v (2 * t + 2)) else v (2 * t + 1)) ∧
      ∀ t, run gt (neighbours k) v (2 * t + 2) =
        if t < k then max (v (2 * t + 1)) (v (2 * t + 2)) else v (2 * t + 2) := by
  induction k with
  | zero => exact ⟨fun t => rfl, fun t => rfl⟩
  | succ k ih =>
    obtain ⟨ih1, ih2⟩ := ih
    have hk1 := ih1 k
    have hk2 := ih2 k
    rw [if_neg (lt_irrefl k)] at hk1 hk2
    constructor <;> intro t <;> rw [neighbours_succ, run_append, run_cons, run_nil, step_up, hk1, hk2]
    · by_cases h : t = k
      · rw [if_pos (by omega), if_pos (by omega), h]
      · rw [if_neg (by omega), if_neg (by omega), ih1 t]
        exact if_congr (by omega) rfl rfl
    · rw [if_neg (by omega)]
      by_cases h : t = k
      · rw [if_pos (by omega), if_pos (by omega), h]
      · rw [if_neg (by omega), ih2 t]
        exact if_congr (by omega) rfl rfl

/-- The wire `0` is no odd wire's right neighbour. -/
theorem run_neighbours_zero (k : Nat) (v : Nat → α) : run gt (neighbours k) v 0 = v 0 := by
  have h : neighbours k = ((List.range k).map fun t => (⟨2 * t, 2 * t + 1, true⟩ : Comparator)).map
      (Comparator.move (· + 1)) := by
    simp only [neighbours, List.map_map]; rfl
  rw [h]
  exact run_move_frame gt _ v (fun i => by omega)

theorem run_interleaved (cs : List Comparator) (v : Nat → α) (k : Nat) :
    run gt (cs.map (Comparator.move (2 * ·)) ++ cs.map (Comparator.move (2 * · + 1))) v (2 * k) =
        run gt cs (fun i => v (2 * i)) k ∧
      run gt (cs.map (Comparator.move (2 * ·)) ++ cs.map (Comparator.move (2 * · + 1))) v (2 * k + 1) =
        run gt cs (fun i => v (2 * i + 1)) k := by
  rw [run_append]
  constructor
  · rw [run_move_frame gt cs _ (fun i => by omega)]
    exact run_move_apply gt double_injective cs v k
  · rw [run_move_apply gt double_succ_injective cs _ k]
    congr 1
    funext i
    exact run_move_frame gt cs v (fun j => by dsimp only; omega)

end Order

/-- **The merger on bits**: two halves that begin with `a` and `b` values `false` merge into one sequence that begins
with `a + b` of them. -/
theorem oddEvenMerge_bits (e : Nat) {a b : Nat} {v : Nat → Bool} (ha : a ≤ 2 ^ e) (hb : b ≤ 2 ^ e)
    (hlo : ∀ i < 2 ^ e, v i = true ↔ a ≤ i) (hhi : ∀ i < 2 ^ e, v (2 ^ e + i) = true ↔ b ≤ i) :
    ∀ k < 2 ^ (e + 1), run gt (oddEvenMergeNet (e + 1)) v k = true ↔ a + b ≤ k := by
  induction e generalizing a b v with
  | zero =>
    intro k hk
    rw [pow_zero] at ha hb hlo hhi
    have h0 := hlo 0 (by omega)
    have h1 : v 1 = true ↔ b ≤ 0 := hhi 0 (by omega)
    have hmin : min (v 0) (v 1) = true ↔ v 0 = true ∧ v 1 = true := Bool.and_eq_true _ _ ▸ Iff.rfl
    have hmax : max (v 0) (v 1) = true ↔ v 0 = true ∨ v 1 = true := Bool.or_eq_true _ _ ▸ Iff.rfl
    rw [oddEvenMergeNet, run_cons, run_nil, step_up]
    obtain rfl | rfl : k = 0 ∨ k = 1 := by omega
    · rw [if_pos rfl, hmin, h0, h1]; omega
    · rw [if_neg (by omega), if_pos rfl, hmax, h0, h1]; omega
  | succ e ih =>
    have h2 : 2 ^ (e + 1) = 2 * 2 ^ e := pow_succ' 2 e
    have h4 : 2 ^ (e + 1 + 1) = 2 * 2 ^ (e + 1) := pow_succ' 2 (e + 1)
    have heven := ih (a := (a + 1) / 2) (b := (b + 1) / 2) (v := fun i => v (2 * i)) (by omega) (by omega)
      (fun i hi => by rw [hlo (2 * i) (by omega)]; omega)
      (fun i hi => by rw [show 2 * (2 ^ e + i) = 2 ^ (e + 1) + 2 * i by omega, hhi (2 * i) (by omega)]; omega)
    have hodd := ih (a := a / 2) (b := b / 2) (v := fun i => v (2 * i + 1)) (by omega) (by omega)
      (fun i hi => by rw [hlo (2 * i + 1) (by omega)]; omega)
      (fun i hi => by
        rw [show 2 * (2 ^ e + i) + 1 = 2 ^ (e + 1) + (2 * i + 1) by omega, hhi (2 * i + 1) (by omega)]; omega)
    intro k hk
    rw [oddEvenMergeNet, run_append]
    generalize hw : run gt ((oddEvenMergeNet (e + 1)).map (Comparator.move (2 * ·)) ++
      (oddEvenMergeNet (e + 1)).map (Comparator.move (2 * · + 1))) v = w
    have hweven : ∀ i < 2 ^ (e + 1), w (2 * i) = true ↔ (a + 1) / 2 + (b + 1) / 2 ≤ i := fun i hi => by
      rw [← hw, (run_interleaved _ v i).1, heven i hi]
    have hwodd : ∀ i < 2 ^ (e + 1), w (2 * i + 1) = true ↔ a / 2 + b / 2 ≤ i := fun i hi => by
      rw [← hw, (run_interleaved _ v i).2, hodd i hi]
    have hmin : ∀ x y, min x y = true ↔ x = true ∧ y = true := fun x y => Bool.and_eq_true x y ▸ Iff.rfl
    have hmax : ∀ x y, max x y = true ↔ x = true ∨ y = true := fun x y => Bool.or_eq_true x y ▸ Iff.rfl
    obtain rfl | ⟨t, rfl⟩ | ⟨t, rfl⟩ : k = 0 ∨ (∃ t, k = 2 * t + 1) ∨ ∃ t, k = 2 * t + 2 := by
      rcases Nat.even_or_odd' k with ⟨t, rfl | rfl⟩
      · cases t with
        | zero => exact .inl rfl
        | succ t => exact .inr (.inr ⟨t, by omega⟩)
      · exact .inr (.inl ⟨t, rfl⟩)
    · rw [run_neighbours_zero, show (0 : Nat) = 2 * 0 from rfl, hweven 0 (by omega)]; omega
    · rw [(run_neighbours _ w).1 t]
      split_ifs with ht
      · rw [hmin, hwodd t (by omega), show 2 * t + 2 = 2 * (t + 1) by ring, hweven (t + 1) (by omega)]; omega
      · rw [hwodd t (by omega)]; omega
    · rw [(run_neighbours _ w).2 t, if_pos (by omega), hmax, hwodd t (by omega), show 2 * t + 2 = 2 * (t + 1) by ring,
        hweven (t + 1) (by omega)]
      omega

section Order
variable {α : Type*} [LinearOrder α]

theorem oddEvenMerge_ascending (e : Nat) {v : Nat → α} (hlo : Ascending (2 ^ e) v)
    (hhi : Ascending (2 ^ e) fun i => v (2 ^ e + i)) :
    Ascending (2 ^ (e + 1)) (run gt (oddEvenMergeNet (e + 1)) v) := by
  rw [zero_one]
  intro t
  obtain ⟨a, ha, hva⟩ := ascending_bits.mp (ascending_iff_threshold.mp hlo t)
  obtain ⟨b, hb, hvb⟩ := ascending_bits.mp (ascending_iff_threshold.mp hhi t)
  have h2 : 2 ^ (e + 1) = 2 * 2 ^ e := pow_succ' 2 e
  exact ascending_bits.mpr ⟨a + b, by omega, oddEvenMerge_bits e ha hb hva hvb⟩

/-- **The sorter** sorts every sequence. -/
theorem oddEvenSort_ascending (e : Nat) (v : Nat → α) : Ascending (2 ^ e) (run gt (oddEvenSortNet e) v) := by
  induction e generalizing v with
  | zero => intro i j hij hj; rw [pow_zero] at hj; rw [show i = j by omega]
  | succ e ih =>
    have h2 : 2 ^ (e + 1) = 2 * 2 ^ e := pow_succ' 2 e
    have hside := run_beside gt (oddEvenSortNet_below e) (oddEvenSortNet e) v
    rw [oddEvenSortNet, run_append]
    apply oddEvenMerge_ascending
    · exact (ascending_congr fun k hk => by rw [hside k, if_pos hk]).mpr (ih v)
    · refine (ascending_congr fun k hk => ?_).mpr (ih fun i => v (i + 2 ^ e))
      rw [hside, if_neg (by omega), Nat.add_sub_cancel_left]

end Order

end FOSketch.Network
