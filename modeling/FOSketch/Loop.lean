import Mathlib

/-!
# Loops

A loop is a `foldl` over the values of its counter, and one whose turns may give up a `foldlM` in `Option`. What every turn
keeps, the loop keeps (`foldl_range'_done`). The same holds of a loop that may give up if it comes to its end, for what
speaks of the items that are still to come (`foldlM_rest`), or of the ones that are done (`foldlM_done`).
-/

namespace FOSketch.Loop

variable {σ α : Type*} {f : σ → α → Option σ} {l : List α} {s s' : σ}

theorem foldl_of_fixed {g : σ → α → σ} (h : ∀ a ∈ l, g s a = s) : l.foldl g s = s := by
  induction l with
  | nil => rfl
  | cons a l ih =>
    rw [List.foldl_cons, h a List.mem_cons_self]
    exact ih fun b hb => h b (List.mem_cons_of_mem a hb)

/-- An invariant about the turns that are done. -/
theorem foldl_range'_done {g : σ → Nat → σ} {P : Nat → σ → Prop} {a n : Nat} (h0 : P 0 s)
    (hstep : ∀ k < n, ∀ t, P k t → P (k + 1) (g t (a + k))) : P n ((List.range' a n).foldl g s) := by
  induction n with
  | zero => exact h0
  | succ n ih =>
    rw [List.range'_1_concat, List.foldl_append, List.foldl_cons, List.foldl_nil]
    exact hstep n (Nat.lt_succ_self n) _ (ih fun k hk => hstep k (Nat.lt_succ_of_lt hk))

/-- A loop up to `n` cut at the turn of `p`. -/
theorem range_split {p n : Nat} (h : p < n) :
    List.range n = List.range p ++ p :: List.range' (p + 1) (n - (p + 1)) := by
  have happend := List.range'_append_1 (s := 0) (m := p) (n := n - (p + 1) + 1)
  rw [Nat.zero_add, show p + (n - (p + 1) + 1) = n by omega] at happend
  rw [List.range_eq_range', List.range_eq_range', ← List.range'_succ]
  exact happend.symm

theorem foldlM_cons_eq_some {a : α} :
    (a :: l).foldlM f s = some s' ↔ ∃ s₁, f s a = some s₁ ∧ l.foldlM f s₁ = some s' := by
  rw [List.foldlM_cons, Option.bind_eq_bind, Option.bind_eq_some_iff]

/-- An invariant about the state and the items to come. -/
theorem foldlM_rest {P : List α → σ → Prop}
    (hstep : ∀ a ∈ l, ∀ rest t t₁, f t a = some t₁ → P (a :: rest) t → P rest t₁) (h : l.foldlM f s = some s')
    (hP : P l s) : P [] s' := by
  induction l generalizing s with
  | nil =>
    obtain rfl : s = s' := Option.some.inj h
    exact hP
  | cons a l ih =>
    obtain ⟨s₁, h1, h2⟩ := foldlM_cons_eq_some.mp h
    apply ih (fun b hb => hstep b (List.mem_cons_of_mem a hb)) h2
    exact hstep a List.mem_cons_self l s s₁ h1 hP

/-- An invariant about the state and the items that are done. -/
theorem foldlM_done {P : List α → σ → Prop}
    (hstep : ∀ a ∈ l, ∀ done t t₁, f t a = some t₁ → P done t → P (done ++ [a]) t₁) (h : l.foldlM f s = some s')
    {done : List α} (hP : P done s) : P (done ++ l) s' := by
  have hrest := foldlM_rest (P := fun rest t => ∃ d, d ++ rest = done ++ l ∧ P d t) ?_ h ⟨done, rfl, hP⟩
  · obtain ⟨d, hd, hend⟩ := hrest
    rw [List.append_nil] at hd
    rwa [← hd]
  · rintro a ha rest t t₁ h1 ⟨d, hd, hinv⟩
    exact ⟨d ++ [a], by rw [List.append_assoc, List.singleton_append, hd], hstep a ha d t t₁ h1 hinv⟩

end FOSketch.Loop
