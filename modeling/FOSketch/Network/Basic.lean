import Mathlib

/-!
# Comparator networks

A network is a list of comparators, run left to right on a sequence `Nat → α`. A comparator names two wires and a
direction, and exchanges its wires exactly when the outcome of the comparison equals the direction: an upward
comparator exchanges a strictly larger value away from its low wire, a downward one exchanges everything else. The
wires a network compares never depend on the values, so it commutes with every relabelling of the values that the
comparison cannot see (`comp_run`) and, over a linear order, with every monotone map (`monotone_comp_run`). The second
fact is the zero-one principle (`zero_one`).
-/

namespace FOSketch.Network

/-- A comparator on the wires `lo` and `hi`. -/
structure Comparator where
  lo : Nat
  hi : Nat
  up : Bool
  deriving DecidableEq, Repr

variable {α β : Type*}

/-- One comparator: exchange the two wires when the comparison gives the direction. -/
def step (gt : α → α → Bool) (c : Comparator) (v : Nat → α) (k : Nat) : α :=
  v (if c.up = gt (v c.lo) (v c.hi) then Equiv.swap c.lo c.hi k else k)

/-- A network: its comparators in order. -/
def run (gt : α → α → Bool) (cs : List Comparator) (v : Nat → α) : Nat → α :=
  cs.foldl (fun w c => step gt c w) v

@[simp] theorem run_nil (gt : α → α → Bool) (v : Nat → α) : run gt [] v = v := rfl

@[simp] theorem run_cons (gt : α → α → Bool) (c : Comparator) (cs : List Comparator) (v : Nat → α) :
    run gt (c :: cs) v = run gt cs (step gt c v) := rfl

theorem run_append (gt : α → α → Bool) (cs ds : List Comparator) (v : Nat → α) :
    run gt (cs ++ ds) v = run gt ds (run gt cs v) := List.foldl_append

/-! ## Relabelling the values -/

theorem comp_step (f : α → β) (gt : α → α → Bool) (gt' : β → β → Bool) (hgt : ∀ x y, gt x y = gt' (f x) (f y))
    (c : Comparator) (v : Nat → α) : f ∘ step gt c v = step gt' c (f ∘ v) := by
  funext k
  simp only [step, Function.comp_apply, hgt]

/-- A network commutes with a map that the comparison factors through. -/
theorem comp_run (f : α → β) (gt : α → α → Bool) (gt' : β → β → Bool) (hgt : ∀ x y, gt x y = gt' (f x) (f y))
    (cs : List Comparator) (v : Nat → α) : f ∘ run gt cs v = run gt' cs (f ∘ v) := by
  induction cs generalizing v with
  | nil => rfl
  | cons c cs ih => rw [run_cons, run_cons, ih, comp_step f gt gt' hgt]

/-! ## Wires -/

/-- Every comparator joins two different wires below `n`. -/
def Below (n : Nat) (cs : List Comparator) : Prop := ∀ c ∈ cs, c.lo < n ∧ c.hi < n ∧ c.lo ≠ c.hi

theorem below_nil (n : Nat) : Below n [] := fun _ h => absurd h List.not_mem_nil

theorem Below.append {n : Nat} {cs ds : List Comparator} (hc : Below n cs) (hd : Below n ds) :
    Below n (cs ++ ds) := by
  intro c h
  rcases List.mem_append.mp h with h | h
  · exact hc c h
  · exact hd c h

theorem Below.mono {m n : Nat} {cs : List Comparator} (h : Below m cs) (hmn : m ≤ n) : Below n cs := fun c hc =>
  ⟨(h c hc).1.trans_le hmn, (h c hc).2.1.trans_le hmn, (h c hc).2.2⟩

theorem step_exchange (gt : α → α → Bool) {c : Comparator} {v : Nat → α} (h : c.up = gt (v c.lo) (v c.hi))
    (k : Nat) : step gt c v k = v (Equiv.swap c.lo c.hi k) := by
  rw [step, if_pos h]

theorem step_keep (gt : α → α → Bool) {c : Comparator} {v : Nat → α} (h : c.up ≠ gt (v c.lo) (v c.hi)) (k : Nat) :
    step gt c v k = v k := by
  rw [step, if_neg h]

theorem step_frame (gt : α → α → Bool) (c : Comparator) (v : Nat → α) {k : Nat} (hl : k ≠ c.lo) (hh : k ≠ c.hi) :
    step gt c v k = v k := by
  unfold step
  rw [Equiv.swap_apply_of_ne_of_ne hl hh, ite_self]

theorem swap_lt {n i j k : Nat} (hi : i < n) (hj : j < n) (hk : k < n) : Equiv.swap i j k < n := by
  rw [Equiv.swap_apply_def]
  split_ifs <;> assumption

theorem run_frame (gt : α → α → Bool) {n : Nat} {cs : List Comparator} (h : Below n cs) (v : Nat → α) {k : Nat}
    (hk : n ≤ k) : run gt cs v k = v k := by
  induction cs generalizing v with
  | nil => rfl
  | cons c cs ih =>
    have hc := h c List.mem_cons_self
    rw [run_cons, ih (fun d hd => h d (List.mem_cons_of_mem c hd))]
    exact step_frame gt c v (by omega) (by omega)

theorem run_congr (gt : α → α → Bool) {n : Nat} {cs : List Comparator} (h : Below n cs) {v w : Nat → α}
    (hvw : ∀ k < n, v k = w k) : ∀ k < n, run gt cs v k = run gt cs w k := by
  induction cs generalizing v w with
  | nil => exact hvw
  | cons c cs ih =>
    have hc := h c List.mem_cons_self
    refine ih (fun d hd => h d (List.mem_cons_of_mem c hd)) (fun k hk => ?_)
    simp only [step, hvw _ hc.1, hvw _ hc.2.1]
    split_ifs
    · exact hvw _ (swap_lt hc.1 hc.2.1 hk)
    · exact hvw k hk

theorem step_forall_iff (gt : α → α → Bool) {n : Nat} {c : Comparator} (hl : c.lo < n) (hh : c.hi < n) {P : α → Prop}
    {v : Nat → α} : (∀ k < n, P (step gt c v k)) ↔ ∀ k < n, P (v k) := by
  by_cases h : c.up = gt (v c.lo) (v c.hi)
  · constructor
    · intro hv k hk
      have := hv _ (swap_lt hl hh hk)
      rwa [step_exchange gt h, Equiv.swap_apply_self] at this
    · intro hv k hk
      rw [step_exchange gt h]
      exact hv _ (swap_lt hl hh hk)
  · exact forall₂_congr fun k _ => by rw [step_keep gt h]

/-- A property holds of every value in the range of a network before it as after it. -/
theorem run_forall_iff (gt : α → α → Bool) {n : Nat} {cs : List Comparator} (h : Below n cs) {P : α → Prop}
    {v : Nat → α} : (∀ k < n, P (run gt cs v k)) ↔ ∀ k < n, P (v k) := by
  induction cs generalizing v with
  | nil => exact Iff.rfl
  | cons c cs ih =>
    have hc := h c List.mem_cons_self
    rw [run_cons, ih fun d hd => h d (List.mem_cons_of_mem c hd)]
    exact step_forall_iff gt hc.1 hc.2.1

/-! ## Moving a network to other wires -/

def Comparator.move (φ : Nat → Nat) (c : Comparator) : Comparator := ⟨φ c.lo, φ c.hi, c.up⟩

theorem step_move_comp (gt : α → α → Bool) {φ : Nat → Nat} (hφ : Function.Injective φ) (c : Comparator)
    (v : Nat → α) : step gt (c.move φ) v ∘ φ = step gt c (v ∘ φ) := by
  funext k
  simp only [step, Comparator.move, Function.comp_apply, hφ.swap_apply, apply_ite φ]

/-- A moved network acts on its wires as the network does. -/
theorem run_move_comp (gt : α → α → Bool) {φ : Nat → Nat} (hφ : Function.Injective φ) (cs : List Comparator)
    (v : Nat → α) : run gt (cs.map (Comparator.move φ)) v ∘ φ = run gt cs (v ∘ φ) := by
  induction cs generalizing v with
  | nil => rfl
  | cons c cs ih => rw [List.map_cons, run_cons, run_cons, ih, step_move_comp gt hφ]

theorem run_move_apply (gt : α → α → Bool) {φ : Nat → Nat} (hφ : Function.Injective φ) (cs : List Comparator)
    (v : Nat → α) (k : Nat) : run gt (cs.map (Comparator.move φ)) v (φ k) = run gt cs (v ∘ φ) k :=
  congrFun (run_move_comp gt hφ cs v) k

theorem run_move_frame (gt : α → α → Bool) {φ : Nat → Nat} (cs : List Comparator) (v : Nat → α) {k : Nat}
    (hk : ∀ i, φ i ≠ k) : run gt (cs.map (Comparator.move φ)) v k = v k := by
  induction cs generalizing v with
  | nil => rfl
  | cons c cs ih =>
    rw [List.map_cons, run_cons, ih]
    exact step_frame gt _ v (hk c.lo).symm (hk c.hi).symm

theorem Below.move {m n : Nat} {cs : List Comparator} (h : Below m cs) {φ : Nat → Nat} (hφ : Function.Injective φ)
    (hn : ∀ k < m, φ k < n) : Below n (cs.map (Comparator.move φ)) := by
  intro c hc
  obtain ⟨d, hd, rfl⟩ := List.mem_map.mp hc
  exact ⟨hn _ (h d hd).1, hn _ (h d hd).2.1, fun he => (h d hd).2.2 (hφ he)⟩

theorem map_move_move (φ ψ : Nat → Nat) (cs : List Comparator) :
    (cs.map (Comparator.move φ)).map (Comparator.move ψ) = cs.map (Comparator.move (ψ ∘ φ)) := by
  rw [List.map_map]; rfl

/-! ## Networks over a linear order -/

section Order
variable [LinearOrder α] [LinearOrder β]

def gt (x y : α) : Bool := decide (y < x)

theorem step_up (i j : Nat) (v : Nat → α) (k : Nat) :
    step gt ⟨i, j, true⟩ v k =
      if k = i then min (v i) (v j) else if k = j then max (v i) (v j) else v k := by
  rcases lt_or_ge (v j) (v i) with h | h
  · rw [step_exchange gt (by simpa [gt] using h), Equiv.swap_apply_def, min_eq_right h.le, max_eq_left h.le]
    split_ifs <;> rfl
  · rw [step_keep gt (by simpa [gt] using h), min_eq_left h, max_eq_right h]
    split_ifs with h1 h2
    exacts [h1 ▸ rfl, h2 ▸ rfl, rfl]

theorem step_down (i j : Nat) (v : Nat → α) (k : Nat) :
    step gt ⟨i, j, false⟩ v k =
      if k = i then max (v i) (v j) else if k = j then min (v i) (v j) else v k := by
  rcases lt_or_ge (v j) (v i) with h | h
  · rw [step_keep gt (by simpa [gt] using h), max_eq_left h.le, min_eq_right h.le]
    split_ifs with h1 h2
    exacts [h1 ▸ rfl, h2 ▸ rfl, rfl]
  · rw [step_exchange gt (by simpa [gt] using h), Equiv.swap_apply_def, max_eq_right h, min_eq_left h]
    split_ifs <;> rfl

theorem monotone_comp_step {f : α → β} (hf : Monotone f) (c : Comparator) (v : Nat → α) :
    f ∘ step gt c v = step gt c (f ∘ v) := by
  obtain ⟨i, j, up⟩ := c
  funext k
  cases up
  · rw [step_down, Function.comp_apply, step_down]
    split_ifs
    exacts [hf.map_max, hf.map_min, rfl]
  · rw [step_up, Function.comp_apply, step_up]
    split_ifs
    exacts [hf.map_min, hf.map_max, rfl]

/-- A network commutes with every monotone map. -/
theorem monotone_comp_run {f : α → β} (hf : Monotone f) (cs : List Comparator) (v : Nat → α) :
    f ∘ run gt cs v = run gt cs (f ∘ v) := by
  induction cs generalizing v with
  | nil => rfl
  | cons c cs ih => rw [run_cons, run_cons, ih, monotone_comp_step hf]

/-- The first `n` values do not decrease. -/
def Ascending (n : Nat) (v : Nat → α) : Prop := ∀ i j, i ≤ j → j < n → v i ≤ v j

/-- The first `n` values do not increase. -/
def Descending (n : Nat) (v : Nat → α) : Prop := ∀ i j, i ≤ j → j < n → v j ≤ v i

theorem ascending_congr {n : Nat} {v w : Nat → α} (h : ∀ k < n, v k = w k) : Ascending n v ↔ Ascending n w := by
  constructor <;> intro ha i j hij hj
  · rw [← h i (hij.trans_lt hj), ← h j hj]; exact ha i j hij hj
  · rw [h i (hij.trans_lt hj), h j hj]; exact ha i j hij hj

/-- The bit sequence of the values at or above a threshold. -/
def threshold (t : α) (v : Nat → α) : Nat → Bool := fun k => decide (t ≤ v k)

theorem threshold_monotone (t : α) : Monotone fun x : α => decide (t ≤ x) := by
  intro x y hxy
  by_cases h : t ≤ x
  · simp [h, h.trans hxy]
  · simp [h]

theorem threshold_run (t : α) (cs : List Comparator) (v : Nat → α) :
    threshold t (run gt cs v) = run gt cs (threshold t v) :=
  monotone_comp_run (threshold_monotone t) cs v

theorem ascending_iff_threshold {n : Nat} {v : Nat → α} :
    Ascending n v ↔ ∀ t, Ascending n (threshold t v) := by
  constructor
  · exact fun h t i j hij hj => threshold_monotone t (h i j hij hj)
  · intro h i j hij hj
    have hle := h (v i) i j hij hj
    rw [threshold, threshold, decide_eq_true (le_refl (v i)), Bool.le_iff_imp] at hle
    exact of_decide_eq_true (hle rfl)

/-- **The zero-one principle**: a network sorts a sequence when it sorts each of its threshold sequences. -/
theorem zero_one (cs : List Comparator) (n : Nat) (v : Nat → α) :
    Ascending n (run gt cs v) ↔ ∀ t, Ascending n (run gt cs (threshold t v)) := by
  rw [ascending_iff_threshold]
  exact forall_congr' fun t => by rw [threshold_run t]

/-! ## Turning a network over -/

def Comparator.flip (c : Comparator) : Comparator := { c with up := !c.up }

theorem step_flip (c : Comparator) (v : Nat → α) :
    step gt c.flip v = OrderDual.ofDual ∘ step gt c (OrderDual.toDual ∘ v) := by
  obtain ⟨i, j, up⟩ := c
  funext k
  cases up
  · change step gt ⟨i, j, true⟩ v k = _
    rw [step_up, Function.comp_apply, step_down]
    split_ifs <;> rfl
  · change step gt ⟨i, j, false⟩ v k = _
    rw [step_down, Function.comp_apply, step_up]
    split_ifs <;> rfl

/-- A network turned over is the network of the dual order. -/
theorem run_flip (cs : List Comparator) (v : Nat → α) :
    run gt (cs.map Comparator.flip) v = OrderDual.ofDual ∘ run gt cs (OrderDual.toDual ∘ v) := by
  induction cs generalizing v with
  | nil => rfl
  | cons c cs ih => rw [List.map_cons, run_cons, run_cons, ih, step_flip]; rfl

theorem descending_run_flip (cs : List Comparator) (n : Nat) (v : Nat → α) :
    Descending n (run gt (cs.map Comparator.flip) v) ↔ Ascending n (run gt cs (OrderDual.toDual ∘ v)) := by
  rw [run_flip]; rfl

theorem Below.flip {n : Nat} {cs : List Comparator} (h : Below n cs) : Below n (cs.map Comparator.flip) := by
  intro c hc
  obtain ⟨d, hd, rfl⟩ := List.mem_map.mp hc
  exact h d hd

end Order

end FOSketch.Network
