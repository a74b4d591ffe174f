import FOSketch.Slots.Basic

/-!
# Compaction in place

A cursor reads the slots in order, a second one behind it marks where the next element goes. Every element moves down to
the second cursor and leaves a hole. Between the cursors there are only holes (`foldl_compactTurn`), so that nothing is
overwritten, and the elements end up at the front in the order they were in.
-/

namespace FOSketch.Slots

variable {α : Type*} (real : α → Bool) (erase : α → α)

/-- The turn of slot `cur`; the slots come with the place of the next element. -/
def compactTurn (t : List α × Nat) (cur : Nat) : List α × Nat :=
  match t.1[cur]? with
  | none => t
  | some x =>
    if real x then (if cur ≠ t.2 then (t.1.set t.2 x).set cur (erase x) else t.1, t.2 + 1) else t

/-- The first `n` slots are compacted. -/
def compact (n : Nat) (l : List α) : List α × Nat := (List.range n).foldl (compactTurn real erase) (l, 0)

variable {real erase}

section Turn
variable {front gap rest : List α} {x : α}

theorem compactTurn_hole (hx : real x = false) :
    compactTurn real erase (front ++ gap ++ x :: rest, front.length) (front.length + gap.length) =
      (front ++ (gap ++ [x]) ++ rest, front.length) := by
  have hget : (front ++ gap ++ x :: rest)[front.length + gap.length]? = some x := by
    rw [← List.length_append, List.getElem?_append_right le_rfl, Nat.sub_self, List.getElem?_cons_zero]
  unfold compactTurn
  rw [hget]
  simp [hx]

/-- Without a gap the element stays where it is. -/
theorem compactTurn_stay (hx : real x = true) :
    compactTurn real erase (front ++ x :: rest, front.length) front.length =
      ((front ++ [x]) ++ rest, (front ++ [x]).length) := by
  unfold compactTurn
  simp [hx]

/-- Else it takes the first hole of the gap, and its slot ends the gap. -/
theorem compactTurn_move {h : α} (hx : real x = true) :
    compactTurn real erase (front ++ (h :: gap) ++ x :: rest, front.length) (front.length + (h :: gap).length) =
      ((front ++ [x]) ++ (gap ++ [erase x]) ++ rest, (front ++ [x]).length) := by
  have hget : (front ++ (h :: gap) ++ x :: rest)[front.length + (h :: gap).length]? = some x := by
    rw [← List.length_append, List.getElem?_append_right le_rfl, Nat.sub_self, List.getElem?_cons_zero]
  have hne : front.length + (h :: gap).length ≠ front.length := by simp
  have hset : (front ++ (h :: gap) ++ x :: rest).set front.length x = front ++ (x :: gap) ++ x :: rest := by
    simp
  have hlen : front.length + (h :: gap).length = (front ++ (x :: gap)).length := by simp
  unfold compactTurn
  rw [hget]
  dsimp only
  rw [if_pos hx, if_pos hne, hset, hlen, List.set_append_right _ _ le_rfl, Nat.sub_self, List.set_cons_zero]
  simp

end Turn

/-- From a front and a gap behind it the cursor runs over `mid`. -/
theorem foldl_compactTurn (herase : ∀ x, real (erase x) = false) (front gap mid rest : List α)
    (hgap : ∀ x ∈ gap, real x = false) :
    ∃ gap', (∀ x ∈ gap', real x = false) ∧
      (List.range' (front.length + gap.length) mid.length).foldl (compactTurn real erase)
          (front ++ gap ++ (mid ++ rest), front.length) =
        (front ++ occupants real mid ++ gap' ++ rest, front.length + (occupants real mid).length) := by
  induction mid generalizing front gap with
  | nil => exact ⟨gap, hgap, by simp⟩
  | cons x mid ih =>
    rw [List.length_cons, List.range'_succ, List.foldl_cons, List.cons_append]
    cases hx : real x with
    | false =>
      have hgap' : ∀ y ∈ gap ++ [x], real y = false :=
        List.forall_mem_append.mpr ⟨hgap, List.forall_mem_singleton.mpr hx⟩
      rw [compactTurn_hole hx, occupants_cons_hole hx]
      have hnext := ih front (gap ++ [x]) hgap'
      rwa [List.length_append, List.length_singleton, ← Nat.add_assoc] at hnext
    | true =>
      rw [occupants_cons_real hx]
      have hfront : front ++ x :: occupants real mid = (front ++ [x]) ++ occupants real mid := by simp
      have hcount : front.length + (x :: occupants real mid).length =
          (front ++ [x]).length + (occupants real mid).length := by
        rw [List.length_cons, List.length_append, List.length_singleton]
        omega
      rw [hfront, hcount]
      cases gap with
      | nil =>
        have hnext := ih (front ++ [x]) [] (by simp)
        have hstart : front.length + 1 = (front ++ [x]).length := by simp
        rw [List.append_nil, List.length_nil, Nat.add_zero] at hnext ⊢
        rw [compactTurn_stay hx, hstart]
        exact hnext
      | cons h gap =>
        have hgap' : ∀ y ∈ gap ++ [erase x], real y = false :=
          List.forall_mem_append.mpr ⟨(List.forall_mem_cons.mp hgap).2, List.forall_mem_singleton.mpr (herase x)⟩
        have hnext := ih (front ++ [x]) (gap ++ [erase x]) hgap'
        have hstart : (front ++ [x]).length + (gap ++ [erase x]).length = front.length + (h :: gap).length + 1 := by
          simp only [List.length_append, List.length_cons, List.length_nil]
          omega
        rw [compactTurn_move hx]
        rwa [hstart] at hnext

/-- **The compacted slots**: the elements in their order, holes behind them, and the slots from `n` on as they were. -/
theorem compact_spec (herase : ∀ x, real (erase x) = false) {n : Nat} {l : List α} (hn : n ≤ l.length) :
    ∃ gap, (∀ x ∈ gap, real x = false) ∧
      compact real erase n l = (occupants real (l.take n) ++ gap ++ l.drop n, (occupants real (l.take n)).length) := by
  obtain ⟨gap, hgap, hrun⟩ := foldl_compactTurn herase [] [] (l.take n) (l.drop n) (by simp)
  refine ⟨gap, hgap, ?_⟩
  rw [List.length_take, min_eq_left hn, List.take_append_drop] at hrun
  rw [compact, List.range_eq_range']
  simpa using hrun

theorem length_compactTurn (t : List α × Nat) (cur : Nat) : (compactTurn real erase t cur).1.length = t.1.length := by
  unfold compactTurn
  split
  · rfl
  · split_ifs <;> simp

theorem length_compact (n : Nat) (l : List α) : (compact real erase n l).1.length = l.length := by
  unfold compact
  induction n with
  | zero => rfl
  | succ n ih => rw [List.range_succ, List.foldl_append, List.foldl_cons, List.foldl_nil, length_compactTurn, ih]

/-- Where no element lies behind as many slots as there are elements, these slots are full. -/
theorem HolesFrom.full {l : List α} (h : HolesFrom real (occupants real l).length l) :
    ∀ x ∈ l.take (occupants real l).length, real x = true := by
  apply List.length_filter_eq_length_iff.mp
  show (occupants real (l.take _)).length = _
  rw [h.occupants_take, List.length_take, min_eq_left (length_occupants_le l)]

end FOSketch.Slots
