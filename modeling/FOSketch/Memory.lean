import Mathlib

/-!
# Memory

A memory is a function of the address. `load` and `store` read and write a list of cells, `copy` is `memcpy`.
-/

namespace FOSketch.Memory

variable {α : Type*}

def load (src : Nat → α) (s n : Nat) : List α := (List.range n).map fun k => src (s + k)

def store (dst : Nat → α) (d : Nat) (l : List α) : Nat → α := fun k => if d ≤ k then l.getD (k - d) (dst k) else dst k

def copy (dst : Nat → α) (d : Nat) (src : Nat → α) (s n : Nat) : Nat → α :=
  fun k => if d ≤ k ∧ k < d + n then src (s + (k - d)) else dst k

@[simp] theorem length_load (src : Nat → α) (s n : Nat) : (load src s n).length = n := by
  rw [load, List.length_map, List.length_range]

theorem getElem?_load (src : Nat → α) (s : Nat) {n k : Nat} (hk : k < n) : (load src s n)[k]? = some (src (s + k)) := by
  rw [load, List.getElem?_map, List.getElem?_range hk, Option.map_some]

theorem load_succ (src : Nat → α) (s n : Nat) : load src s (n + 1) = load src s n ++ [src (s + n)] := by
  rw [load, List.range_succ, List.map_append]
  rfl

theorem load_add (src : Nat → α) (s n k : Nat) : load src s (n + k) = load src s n ++ load src (s + n) k := by
  unfold load
  rw [List.range_add, List.map_append, List.map_map]
  congr 2
  funext j
  rw [Function.comp_apply, Nat.add_assoc]

theorem load_pos (src : Nat → α) (s : Nat) {n : Nat} (hn : 0 < n) : load src s n = src s :: load src (s + 1) (n - 1) := by
  have h := load_add src s 1 (n - 1)
  rwa [Nat.add_sub_cancel' hn] at h

theorem load_take (src : Nat → α) (s n k : Nat) : (load src s n).take k = load src s (min k n) := by
  unfold load
  rw [← List.map_take, List.take_range]

theorem zipWith_load (f : α → α → α) (src src' : Nat → α) (s s' n : Nat) :
    List.zipWith f (load src s n) (load src' s' n) = (List.range n).map fun k => f (src (s + k)) (src' (s' + k)) := by
  unfold load
  rw [List.zipWith_map, List.zipWith_self]

theorem load_congr {src src' : Nat → α} {s s' n : Nat} (h : ∀ k < n, src (s + k) = src' (s' + k)) :
    load src s n = load src' s' n :=
  List.map_congr_left fun k hk => h k (List.mem_range.mp hk)

theorem load_drop (src : Nat → α) (s n k : Nat) : (load src s n).drop k = load src (s + k) (n - k) := by
  by_cases hk : k ≤ n
  · rw [← Nat.add_sub_cancel' hk, load_add, List.drop_left' (length_load _ _ _), Nat.add_sub_cancel' hk]
  · rw [List.drop_of_length_le (by rw [length_load]; omega), Nat.sub_eq_zero_of_le (by omega)]
    rfl

theorem load_slice {src src' : Nat → α} {s s' n : Nat} (h : load src s n = load src' s' n) (k : Nat) {j : Nat}
    (hj : k + j ≤ n) : load src (s + k) j = load src' (s' + k) j := by
  have hdrop := congrArg (fun l => (l.drop k).take j) h
  simpa [load_drop, load_take, show min j (n - k) = j by omega] using hdrop

theorem load_update_outside (src : Nat → α) {s n k : Nat} (h : k < s ∨ s + n ≤ k) (x : α) :
    load (Function.update src k x) s n = load src s n := by
  apply load_congr
  intro j hj
  rw [Function.update_of_ne (by omega)]

/-- A cell that is written behind the ones that are read. -/
theorem load_update_end (src : Nat → α) (s n : Nat) (x : α) :
    load (Function.update src (s + n) x) s (n + 1) = load src s n ++ [x] := by
  rw [load_succ, Function.update_self, load_update_outside src (Or.inr le_rfl)]

theorem store_of_outside {dst : Nat → α} {d : Nat} {l : List α} {k : Nat} (h : k < d ∨ d + l.length ≤ k) :
    store dst d l k = dst k := by
  unfold store
  split_ifs
  · exact List.getD_eq_default _ _ (by omega)
  · rfl

theorem load_store (dst : Nat → α) (d : Nat) (l : List α) : load (store dst d l) d l.length = l := by
  apply List.ext_getElem?
  intro k
  by_cases hk : k < l.length
  · rw [getElem?_load _ _ hk, store, if_pos (Nat.le_add_right d k), Nat.add_sub_cancel_left,
      List.getD_eq_getElem _ _ hk, List.getElem?_eq_getElem hk]
  · rw [List.getElem?_eq_none (by rw [length_load]; omega), List.getElem?_eq_none (by omega)]

theorem load_store_of_length (dst : Nat → α) (d : Nat) {l : List α} {n : Nat} (h : l.length = n) :
    load (store dst d l) d n = l := by
  rw [← h, load_store]

theorem load_store_outside (dst : Nat → α) {s n d : Nat} {l : List α} (h : s + n ≤ d ∨ d + l.length ≤ s) :
    load (store dst d l) s n = load dst s n :=
  load_congr fun _ hk => store_of_outside (by omega)

theorem store_append (dst : Nat → α) (d : Nat) (l l' : List α) :
    store (store dst d l) (d + l.length) l' = store dst d (l ++ l') := by
  funext k
  unfold store
  by_cases h : d + l.length ≤ k
  · rw [if_pos h, if_pos (by omega), if_pos (by omega), List.getD_append_right _ _ _ _ (by omega),
      List.getD_eq_default l _ (by omega), Nat.sub_add_eq]
  · rw [if_neg h]
    split_ifs with hd
    · exact (List.getD_append _ _ _ _ (by omega)).symm
    · rfl

theorem load_store_before (dst : Nat → α) {s n d : Nat} (h : s + n ≤ d) (l : List α) :
    load (store dst d l) s n = load dst s n :=
  load_congr fun _ hk => store_of_outside (Or.inl (by omega))

/-! ## Copying -/

/-- The `n` cells from `d` on and those from `s` on do not overlap. -/
def Apart (d s n : Nat) : Prop := d + n ≤ s ∨ s + n ≤ d

theorem Apart.symm {d s n : Nat} (h : Apart d s n) : Apart s d n := Or.symm h

theorem Apart.mono {d s n k : Nat} (h : Apart d s n) (hk : k ≤ n) : Apart d s k := by
  unfold Apart at *
  omega

theorem copy_of_outside {dst src : Nat → α} {d s n k : Nat} (h : k < d ∨ d + n ≤ k) : copy dst d src s n k = dst k :=
  if_neg (by omega)

theorem copy_of_inside {dst src : Nat → α} {d s n k : Nat} (hk : k < n) : copy dst d src s n (d + k) = src (s + k) := by
  unfold copy
  rw [if_pos (by omega), Nat.add_sub_cancel_left]

theorem store_load (dst : Nat → α) (d : Nat) (src : Nat → α) (s n : Nat) :
    store dst d (load src s n) = copy dst d src s n := by
  funext k
  by_cases hk : d ≤ k ∧ k < d + n
  · obtain ⟨j, rfl⟩ := Nat.exists_eq_add_of_le hk.1
    rw [copy_of_inside (by omega), store, if_pos hk.1, Nat.add_sub_cancel_left, List.getD_eq_getElem?_getD,
      getElem?_load _ _ (by omega), Option.getD_some]
  · rw [copy_of_outside (by omega), store_of_outside (by rw [length_load]; omega)]

theorem load_copy (dst : Nat → α) (d : Nat) (src : Nat → α) (s n : Nat) : load (copy dst d src s n) d n = load src s n :=
  load_congr fun _ hk => copy_of_inside hk

theorem load_copy_before (dst : Nat → α) {s n d : Nat} (h : s + n ≤ d) (src : Nat → α) (s' n' : Nat) :
    load (copy dst d src s' n') s n = load dst s n :=
  load_congr fun _ hk => copy_of_outside (Or.inl (by omega))

theorem load_copy_apart (dst : Nat → α) {d s n : Nat} (h : Apart d s n) (src : Nat → α) (s' : Nat) :
    load (copy dst d src s' n) s n = load dst s n := by
  unfold Apart at h
  exact load_congr fun _ hk => copy_of_outside (by omega)

theorem copy_eq_self {mem : Nat → α} {d s n : Nat} (h : ∀ k < n, mem (d + k) = mem (s + k)) : copy mem d mem s n = mem := by
  funext k
  by_cases hk : d ≤ k ∧ k < d + n
  · obtain ⟨j, rfl⟩ := Nat.exists_eq_add_of_le hk.1
    rw [copy_of_inside (by omega), h j (by omega)]
  · exact copy_of_outside (by omega)

@[simp] theorem copy_zero (dst : Nat → α) (d : Nat) (src : Nat → α) (s : Nat) : copy dst d src s 0 = dst := by
  funext k
  exact copy_of_outside (by omega)

/-- The copy of `a` cells goes on with `b` more. -/
theorem copy_add {mem mem' : Nat → α} {d s a b d' s' : Nat} (hmem : mem' = copy mem d mem s a) (hd : d' = d + a)
    (hs : s' = s + a) (h : d = s ∨ Apart d s (a + b)) : copy mem' d' mem' s' b = copy mem d mem s (a + b) := by
  subst hmem hd hs
  rcases h with rfl | h
  · rw [copy_eq_self fun _ _ => rfl, copy_eq_self fun _ _ => rfl, copy_eq_self fun _ _ => rfl]
  · unfold Apart at h
    funext k
    by_cases hk : d ≤ k ∧ k < d + (a + b)
    · obtain ⟨j, rfl⟩ := Nat.exists_eq_add_of_le hk.1
      rw [copy_of_inside (show j < a + b by omega)]
      by_cases hj : j < a
      · rw [copy_of_outside (by omega), copy_of_inside hj]
      · obtain ⟨i, rfl⟩ := Nat.exists_eq_add_of_le (not_lt.mp hj)
        rw [← Nat.add_assoc, copy_of_inside (by omega), copy_of_outside (by omega), Nat.add_assoc]
    · rw [copy_of_outside (by omega), copy_of_outside (by omega), copy_of_outside (by omega)]

theorem copy_again {mem mem' : Nat → α} {d s n i j d' s' : Nat} (hmem : mem' = copy mem d mem s n) (hd : d' = d + i)
    (hs : s' = s + i) (h : d = s ∨ Apart d s n) (hij : i + j ≤ n) :
    copy mem' d' mem' s' j = copy mem d mem s n := by
  subst hmem hd hs
  refine copy_eq_self fun k hk => ?_
  rcases h with rfl | h
  · rfl
  · unfold Apart at h
    rw [Nat.add_assoc, copy_of_inside (by omega), copy_of_outside (by omega), Nat.add_assoc]

/-- A longer copy that does no more. -/
theorem copy_eq_copy_iff (mem : Nat → α) {d s a b : Nat} (hab : a ≤ b) :
    copy mem d mem s a = copy mem d mem s b ↔ ∀ k, a ≤ k → k < b → mem (d + k) = mem (s + k) := by
  constructor
  · intro h k hak hkb
    have hk := congrFun h (d + k)
    rwa [copy_of_outside (by omega), copy_of_inside hkb] at hk
  · intro h
    funext k
    by_cases hk : d + a ≤ k ∧ k < d + b
    · obtain ⟨j, rfl⟩ := Nat.exists_eq_add_of_le (show d ≤ k by omega)
      rw [copy_of_outside (by omega), copy_of_inside (by omega), h j (by omega) (by omega)]
    · by_cases hin : d ≤ k ∧ k < d + a
      · obtain ⟨j, rfl⟩ := Nat.exists_eq_add_of_le hin.1
        rw [copy_of_inside (by omega), copy_of_inside (by omega)]
      · rw [copy_of_outside (by omega), copy_of_outside (by omega)]

end FOSketch.Memory
