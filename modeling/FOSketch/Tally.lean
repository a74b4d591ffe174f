import Mathlib

/-!
# Tallies

A tally of a list has one record for every distinct element, with the number of times it occurs. Two tallies of a list
differ in the order of the records only (`IsTally.perm`), and the numbers add up to the length of the list (`IsTally.sum`).
`firsts` is the order in which the elements first occur: it grows at the end as the list does (`firsts_concat`).
-/

namespace FOSketch

variable {α : Type*} [DecidableEq α] {l : List α}

/-! ## First occurrences -/

/-- The distinct elements in the order of their first occurrences; `dedup` keeps the last ones. -/
def firsts (l : List α) : List α := l.reverse.dedup.reverse

@[simp] theorem firsts_nil : firsts ([] : List α) = [] := rfl

theorem firsts_concat (l : List α) (x : α) : firsts (l ++ [x]) = if x ∈ l then firsts l else firsts l ++ [x] := by
  unfold firsts
  rw [List.reverse_append, List.reverse_singleton, List.singleton_append, List.dedup_cons]
  simp only [List.mem_reverse]
  split_ifs
  · rfl
  · rw [List.reverse_cons]

@[simp] theorem mem_firsts {x : α} : x ∈ firsts l ↔ x ∈ l := by
  rw [firsts, List.mem_reverse, List.mem_dedup, List.mem_reverse]

theorem nodup_firsts (l : List α) : (firsts l).Nodup := by
  rw [firsts, List.nodup_reverse]
  exact List.nodup_dedup _

theorem length_firsts_le (l : List α) : (firsts l).length ≤ l.length := by
  have h := (List.dedup_sublist l.reverse).length_le
  rwa [firsts, List.length_reverse, ← @List.length_reverse _ l]

/-! ## Tallies -/

structure IsTally (l : List α) (r : List (α × Nat)) : Prop where
  nodup : (r.map Prod.fst).Nodup
  mem_iff : ∀ c, c ∈ r ↔ c.1 ∈ l ∧ c.2 = l.count c.1

/-- The distinct elements in some order, each with its number. -/
theorem isTally_map {ks : List α} (hks : ks.Nodup) (hmem : ∀ x, x ∈ ks ↔ x ∈ l) :
    IsTally l (ks.map fun x => (x, l.count x)) := by
  refine ⟨?_, fun c => ?_⟩
  · rw [List.map_map]
    exact (List.map_id ks).symm ▸ hks
  · rw [List.mem_map]
    constructor
    · rintro ⟨x, hx, rfl⟩
      exact ⟨(hmem x).mp hx, rfl⟩
    · rintro ⟨hc, hcount⟩
      exact ⟨c.1, (hmem c.1).mpr hc, Prod.ext rfl hcount.symm⟩

theorem IsTally.perm {r r' : List (α × Nat)} (h : IsTally l r) (h' : IsTally l r') : r.Perm r' := by
  apply (List.perm_ext_iff_of_nodup h.nodup.of_map h'.nodup.of_map).mpr
  intro c
  rw [h.mem_iff, h'.mem_iff]

theorem isTally_dedup (l : List α) : IsTally l (l.dedup.map fun x => (x, l.count x)) :=
  isTally_map (List.nodup_dedup l) fun _ => List.mem_dedup

theorem IsTally.of_perm {l' : List α} {r : List (α × Nat)} (h : IsTally l r) (hl : l.Perm l') : IsTally l' r := by
  refine ⟨h.nodup, fun c => ?_⟩
  rw [h.mem_iff, hl.mem_iff, hl.count_eq]

theorem IsTally.sum {r : List (α × Nat)} (h : IsTally l r) : (r.map Prod.snd).sum = l.length := by
  rw [((h.perm (isTally_dedup l)).map Prod.snd).sum_eq, List.map_map]
  exact List.sum_map_count_dedup_eq_length l

theorem isTally_of_nodup (h : l.Nodup) : IsTally l (l.map fun x => (x, 1)) := by
  have hone : (l.map fun x => (x, 1)) = l.map fun x => (x, l.count x) := by
    apply List.map_congr_left
    intro x hx
    rw [List.count_eq_one_of_mem h hx]
  rw [hone]
  exact isTally_map h fun _ => Iff.rfl

end FOSketch
