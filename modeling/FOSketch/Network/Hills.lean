import FOSketch.Network.Bitonic

/-!
# The bitonic sorter on hills

A merger whose length is a power of two also sorts a sequence that rises and then falls. The sorter built on it sorts its
lower half upward and its upper half downward, whichever way it is to sort the whole (`hillNet_sorts`).

Comparators that point down exchange equal keys, the others do not. Where no two keys differ, an upward merger does
nothing and a downward one puts the first element last, so the sorter ends with the first element of its upper half
(`hillNet_tied`).
-/

namespace FOSketch.Network

/-! ## Sorting -/

section Order
variable {α : Type*} [LinearOrder α] {split : Nat → Nat} {N : Nat}

/-- A sequence that does not decrease before some position and does not increase from there on. -/
def Hill (n : Nat) (v : Nat → α) : Prop :=
  ∃ t ≤ n, Ascending t v ∧ ∀ i j, t ≤ i → i ≤ j → j < n → v j ≤ v i

theorem Hill.oneRun {n : Nat} {v : Nat → α} (h : Hill n v) (x : α) : OneRun true n (threshold x v) := by
  obtain ⟨t, ht, ha, hd⟩ := h
  have hup : Ascending t (threshold x v) := fun i j hij hj => threshold_monotone x (ha i j hij hj)
  have hdown : Ascending (n - t) fun k => !threshold x v (k + t) := by
    intro i j hij hj
    have hle : threshold x v (j + t) ≤ threshold x v (i + t) :=
      threshold_monotone x (hd (i + t) (j + t) (by omega) (by omega) (by omega))
    dsimp only
    cases hi : threshold x v (i + t) with
    | false =>
      rw [hi] at hle
      rw [le_bot_iff.mp hle]
      exact le_refl _
    | true => exact Bool.false_le _
  obtain ⟨p, hp, hp'⟩ := ascending_bits.mp hup
  obtain ⟨q, hq, hq'⟩ := ascending_bits.mp hdown
  refine ⟨p, q + t, fun k hk => ?_⟩
  by_cases hkt : k < t
  · rw [hp' k hkt]
    omega
  · have hright := hq' (k - t) (by omega)
    rw [Nat.sub_add_cancel (by omega), Bool.not_eq_true'] at hright
    rw [← Bool.not_eq_false, hright]
    omega

theorem mergeNet_hill (hs : Halves split N) {e f : Nat} (hf : 2 ^ e ≤ f) (hN : 2 ^ e ≤ N) {v : Nat → α}
    (hv : Hill (2 ^ e) v) : Ascending (2 ^ e) (run gt (mergeNet split true f (2 ^ e)) v) := by
  rw [zero_one]
  exact fun t => mergeNet_two_pow hs hf hN ⟨true, hv.oneRun t⟩

def hillNet (split : Nat → Nat) : Bool → Nat → List Comparator
  | _, 0 => []
  | up, e + 1 =>
    (hillNet split true e ++ (hillNet split false e).map (Comparator.move (· + 2 ^ e))) ++
      mergeNet split up (2 ^ (e + 1)) (2 ^ (e + 1))

theorem hillNet_below (hs : Halves split N) (up : Bool) {e : Nat} (he : 2 ^ e ≤ N) : Below (2 ^ e) (hillNet split up e) := by
  induction e generalizing up with
  | zero => exact below_nil _
  | succ e ih =>
    have h2 : 2 ^ (e + 1) = 2 * 2 ^ e := pow_succ' 2 e
    have hlow := ih true (by omega)
    have hhigh := ih false (by omega)
    apply Below.append
    · apply (hlow.mono (by omega)).append
      exact hhigh.move (fun a b hab => Nat.add_right_cancel hab) fun k hk => by omega
    · exact mergeNet_below split up hs _ _ he

/-- **The sorter** sorts every sequence, in the direction asked for. -/
theorem hillNet_sorts (hs : Halves split N) {e : Nat} (he : 2 ^ e ≤ N) (v : Nat → α) :
    Ascending (2 ^ e) (run gt (hillNet split true e) v) ∧ Descending (2 ^ e) (run gt (hillNet split false e) v) := by
  induction e generalizing v with
  | zero =>
    constructor
    · intro i j hij hj
      rw [show i = j by omega]
    · intro i j hij hj
      rw [show i = j by omega]
  | succ e ih =>
    have h2 : 2 ^ (e + 1) = 2 * 2 ^ e := pow_succ' 2 e
    have hbelow : Below (2 ^ e) (hillNet split true e) := hillNet_below hs true (by omega)
    have hbeside := fun k => run_beside gt hbelow (hillNet split false e) v k
    have hlow := (ih (by omega) v).1
    have hhigh := (ih (by omega) fun i => v (i + 2 ^ e)).2
    have hhill : Hill (2 ^ (e + 1)) (run gt
        (hillNet split true e ++ (hillNet split false e).map (Comparator.move (· + 2 ^ e))) v) := by
      refine ⟨2 ^ e, by omega, fun i j hij hj => ?_, fun i j hi hij hj => ?_⟩
      · rw [hbeside, hbeside, if_pos hj, if_pos (by omega)]
        exact hlow i j hij hj
      · rw [hbeside, hbeside, if_neg (by omega), if_neg (by omega)]
        exact hhigh _ _ (by omega) (by omega)
    unfold hillNet
    rw [run_append _ (_ ++ _), run_append _ (_ ++ _)]
    exact ⟨mergeNet_hill hs le_rfl he hhill, mergeNet_descending hs le_rfl he hhill⟩

end Order

/-! ## Equal keys -/

section Ties
variable {α : Type*} {gt : α → α → Bool} {v : Nat → α} {split : Nat → Nat} {N : Nat}

/-- No two elements differ in the comparison. -/
def Tied (gt : α → α → Bool) (v : Nat → α) : Prop := ∀ i j, gt (v i) (v j) = false

theorem Tied.step (h : Tied gt v) (c : Comparator) : Tied gt (step gt c v) := fun _ _ => h _ _

theorem Tied.run (h : Tied gt v) (cs : List Comparator) : Tied gt (run gt cs v) := by
  induction cs generalizing v with
  | nil => exact h
  | cons c cs ih => exact ih (h.step c)

theorem Tied.shift (h : Tied gt v) (m : Nat) : Tied gt fun i => v (i + m) := fun _ _ => h _ _

theorem mergeNet_up (up : Bool) (f n : Nat) : ∀ c ∈ mergeNet split up f n, c.up = up := by
  induction f generalizing n with
  | zero => exact fun c hc => absurd hc List.not_mem_nil
  | succ f ih =>
    intro c hc
    unfold mergeNet at hc
    split_ifs at hc with h1
    · rcases List.mem_append.mp hc with hc | hc
      · obtain ⟨i, -, rfl⟩ := List.mem_map.mp hc
        rfl
      · rcases List.mem_append.mp hc with hc | hc
        · exact ih _ c hc
        · obtain ⟨d, hd, rfl⟩ := List.mem_map.mp hc
          exact ih _ d hd
    · exact absurd hc List.not_mem_nil

theorem mergeNet_true_tied (h : Tied gt v) (f n : Nat) : run gt (mergeNet split true f n) v = v := by
  have hups := @mergeNet_up split true f n
  generalize mergeNet split true f n = cs at hups
  induction cs with
  | nil => rfl
  | cons c cs ih =>
    have hkeep : step gt c v = v := by
      funext k
      apply step_keep
      rw [hups c List.mem_cons_self, h]
      decide
    rw [run_cons, hkeep]
    exact ih fun d hd => hups d (List.mem_cons_of_mem c hd)

/-- The first comparator of a downward layer exchanges its wires; the others do not touch them. -/
theorem layer_false_tied (h : Tied gt v) {k m : Nat} (hk : 0 < k) (hkm : k ≤ m) : run gt (layer k m false) v m = v 0 := by
  induction k with
  | zero => exact absurd hk (lt_irrefl 0)
  | succ k ih =>
    rw [layer_succ, run_append, run_cons, run_nil]
    rcases Nat.eq_zero_or_pos k with rfl | hpos
    · rw [step_exchange gt (Eq.symm ((h.run _) _ _)), Nat.zero_add, Equiv.swap_apply_right]
      rfl
    · have hframe : step gt ⟨k, k + m, false⟩ (run gt (layer k m false) v) m = run gt (layer k m false) v m := by
        apply step_frame
        · show m ≠ k
          omega
        · show m ≠ k + m
          omega
      rw [hframe]
      exact ih hpos (by omega)

/-- A downward merger puts the first element of a tied sequence last. -/
theorem mergeNet_false_tied (hs : Halves split N) {e f : Nat} (hf : 2 ^ e ≤ f) (hN : 2 ^ e ≤ N) (h : Tied gt v) :
    run gt (mergeNet split false f (2 ^ e)) v (2 ^ e - 1) = v 0 := by
  induction e generalizing f v with
  | zero =>
    obtain ⟨f, rfl⟩ : ∃ g, f = g + 1 := ⟨f - 1, by omega⟩
    rfl
  | succ e ih =>
    have h2 : 2 ^ (e + 1) = 2 * 2 ^ e := pow_succ' 2 e
    have hpos := Nat.two_pow_pos e
    have hsplit := hs.split_two_pow hN
    have hhalf : 2 ^ (e + 1) - 2 ^ e = 2 ^ e := by omega
    obtain ⟨f, rfl⟩ : ∃ g, f = g + 1 := ⟨f - 1, by omega⟩
    have hbelow : Below (2 ^ e) (mergeNet split false f (2 ^ e)) := mergeNet_below split false hs f _ (by omega)
    unfold mergeNet
    rw [if_pos (by omega), hsplit, hhalf, run_append, run_beside gt hbelow, if_neg (by omega),
      show 2 ^ (e + 1) - 1 - 2 ^ e = 2 ^ e - 1 by omega, ih (by omega) (by omega) ((h.run _).shift _), Nat.zero_add]
    exact layer_false_tied h hpos le_rfl

/-- Sorting upward leaves the first element of a tied sequence where it is, sorting downward puts it last. -/
theorem hillNet_tied_first (hs : Halves split N) {e : Nat} (he : 2 ^ e ≤ N) (h : Tied gt v) :
    run gt (hillNet split true e) v 0 = v 0 ∧ run gt (hillNet split false e) v (2 ^ e - 1) = v 0 := by
  induction e generalizing v with
  | zero => exact ⟨rfl, rfl⟩
  | succ e ih =>
    have h2 : 2 ^ (e + 1) = 2 * 2 ^ e := pow_succ' 2 e
    have hpos := Nat.two_pow_pos e
    have hbelow : Below (2 ^ e) (hillNet split true e) := hillNet_below hs true (by omega)
    have hfirst : run gt (hillNet split true e ++ (hillNet split false e).map (Comparator.move (· + 2 ^ e))) v 0 = v 0 := by
      rw [run_beside gt hbelow, if_pos hpos]
      exact (ih (by omega) h).1
    unfold hillNet
    rw [run_append _ (_ ++ _), run_append _ (_ ++ _)]
    constructor
    · rw [mergeNet_true_tied (h.run _), hfirst]
    · rw [mergeNet_false_tied hs le_rfl he (h.run _), hfirst]

/-- **On a tied sequence** the sorter ends with the first element of its upper half. -/
theorem hillNet_tied (hs : Halves split N) {e : Nat} (he : 2 ^ (e + 1) ≤ N) (h : Tied gt v) :
    run gt (hillNet split true (e + 1)) v (2 ^ (e + 1) - 1) = v (2 ^ e) := by
  have h2 : 2 ^ (e + 1) = 2 * 2 ^ e := pow_succ' 2 e
  have hbelow : Below (2 ^ e) (hillNet split true e) := hillNet_below hs true (by omega)
  unfold hillNet
  rw [run_append _ (_ ++ _), mergeNet_true_tied (h.run _), run_beside gt hbelow, if_neg (by omega),
    show 2 ^ (e + 1) - 1 - 2 ^ e = 2 ^ e - 1 by omega, (hillNet_tied_first hs (by omega) (h.shift _)).2, Nat.zero_add]

end Ties

end FOSketch.Network
