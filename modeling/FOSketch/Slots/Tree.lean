import FOSketch.Slots.Basic

/-!
# Buckets of a tree

The nodes of a perfect binary tree numbered from the root (`1`) downwards, level by level, and an array of buckets of
which several are read or overwritten at once. `writeAt_perm` is the frame rule: overwriting swaps the old contents of
the buckets for the new ones and touches nothing else.
-/

namespace FOSketch.Slots

variable {α : Type*}

/-! ## The path to a leaf -/

/-- The node at level `i` above `leaf`, in a tree whose leaves are at `level`. -/
def node (level leaf i : Nat) : Nat := 2 ^ i + leaf / 2 ^ (level - i)

theorem div_pow_lt {level leaf i : Nat} (hi : i ≤ level) (h : leaf < 2 ^ level) : leaf / 2 ^ (level - i) < 2 ^ i := by
  rw [Nat.div_lt_iff_lt_mul (by positivity), ← pow_add, Nat.add_sub_cancel' hi]
  exact h

theorem node_lt {level leaf i : Nat} (hi : i ≤ level) (h : leaf < 2 ^ level) : node level leaf i < 2 ^ (i + 1) := by
  have := div_pow_lt hi h
  unfold node
  rw [pow_succ]
  omega

theorem le_node (level leaf i : Nat) : 2 ^ i ≤ node level leaf i := Nat.le_add_right _ _

theorem one_le_node (level leaf i : Nat) : 1 ≤ node level leaf i :=
  (Nat.one_le_two_pow).trans (le_node level leaf i)

theorem node_zero {level leaf : Nat} (h : leaf < 2 ^ level) : node level leaf 0 = 1 := by
  unfold node
  rw [Nat.sub_zero, Nat.div_eq_of_lt h, pow_zero]

/-- One step down: the next bit of the leaf chooses the child. -/
theorem node_succ {level i : Nat} (leaf : Nat) (hi : i < level) :
    node level leaf (i + 1) = 2 * node level leaf i + leaf / 2 ^ (level - (i + 1)) % 2 := by
  unfold node
  have h : leaf / 2 ^ (level - i) = leaf / 2 ^ (level - (i + 1)) / 2 := by
    rw [Nat.div_div_eq_div_mul, ← pow_succ]
    congr 2
    omega
  rw [h, pow_succ]
  omega

theorem node_lt_node {level leaf i j : Nat} (hij : i < j) (hj : j ≤ level) (h : leaf < 2 ^ level) (leaf' : Nat) :
    node level leaf i < node level leaf' j := by
  have h1 := node_lt (hij.le.trans hj) h
  have h2 : 2 ^ (i + 1) ≤ 2 ^ j := Nat.pow_le_pow_right (by decide) hij
  exact h1.trans_le (h2.trans (le_node level leaf' j))

theorem level_of_node {level leaf leaf' i j : Nat} (hi : i ≤ level) (hj : j ≤ level) (h : leaf < 2 ^ level)
    (h' : leaf' < 2 ^ level) (heq : node level leaf i = node level leaf' j) : i = j := by
  rcases lt_trichotomy i j with hlt | rfl | hlt
  · exact absurd heq (node_lt_node hlt hj h leaf').ne
  · rfl
  · exact absurd heq (node_lt_node hlt hi h' leaf).ne'

/-- The indices, from zero, of the buckets from the root to a leaf. -/
def pathTo (level leaf : Nat) : List Nat := (List.range (level + 1)).map fun i => node level leaf i - 1

@[simp] theorem length_pathTo (level leaf : Nat) : (pathTo level leaf).length = level + 1 := by
  simp [pathTo]

theorem getElem?_pathTo {level leaf i : Nat} (hi : i ≤ level) : (pathTo level leaf)[i]? = some (node level leaf i - 1) := by
  unfold pathTo
  rw [List.getElem?_map, List.getElem?_range (by omega), Option.map_some]

theorem mem_pathTo {level leaf k : Nat} : k ∈ pathTo level leaf ↔ ∃ i ≤ level, k + 1 = node level leaf i := by
  unfold pathTo
  simp only [List.mem_map, List.mem_range]
  constructor
  · rintro ⟨i, hi, rfl⟩
    have := one_le_node level leaf i
    exact ⟨i, by omega, by omega⟩
  · rintro ⟨i, hi, h⟩
    exact ⟨i, by omega, by omega⟩

theorem pathTo_lt {level leaf k : Nat} (h : leaf < 2 ^ level) (hk : k ∈ pathTo level leaf) : k < 2 ^ (level + 1) - 1 := by
  obtain ⟨i, hi, e⟩ := mem_pathTo.mp hk
  have h1 := node_lt hi h
  have h2 : 2 ^ (i + 1) ≤ 2 ^ (level + 1) := Nat.pow_le_pow_right (by decide) (by omega)
  omega

theorem nodup_pathTo {level leaf : Nat} (h : leaf < 2 ^ level) : (pathTo level leaf).Nodup := by
  unfold pathTo
  apply List.Nodup.map_on _ List.nodup_range
  intro i hi j hj hij
  rw [List.mem_range] at hi hj
  have hp := one_le_node level leaf i
  have hq := one_le_node level leaf j
  exact level_of_node (by omega) (by omega) h h (by omega)

theorem node_eq_of_div {level leaf leaf' i : Nat} (h : leaf / 2 ^ (level - i) = leaf' / 2 ^ (level - i)) :
    node level leaf i = node level leaf' i := by
  unfold node
  rw [h]

/-! ## Reading and writing several buckets -/

def readAt (t : List (List α)) (ks : List Nat) : List (List α) := ks.map fun k => t.getD k []

/-- The buckets at the given indices are overwritten, one after the other. -/
def writeAt (t : List (List α)) : List Nat → List (List α) → List (List α)
  | [], _ => t
  | _ :: _, [] => t
  | k :: ks, b :: bs => writeAt (t.set k b) ks bs

@[simp] theorem length_readAt (t : List (List α)) (ks : List Nat) : (readAt t ks).length = ks.length := by
  simp [readAt]

@[simp] theorem length_writeAt (t : List (List α)) (ks : List Nat) (bs : List (List α)) :
    (writeAt t ks bs).length = t.length := by
  induction ks generalizing t bs with
  | nil => rw [writeAt]
  | cons k ks ih =>
    cases bs with
    | nil => rfl
    | cons b bs => rw [writeAt, ih, List.length_set]

theorem mem_writeAt {t : List (List α)} {ks : List Nat} {bs : List (List α)} {b : List α} (h : b ∈ writeAt t ks bs) :
    b ∈ t ∨ b ∈ bs := by
  induction ks generalizing t bs with
  | nil =>
    rw [writeAt] at h
    exact Or.inl h
  | cons k ks ih =>
    cases bs with
    | nil => exact Or.inl h
    | cons c bs =>
      rcases ih h with h | h
      · rcases List.mem_or_eq_of_mem_set h with h | rfl
        · exact Or.inl h
        · exact Or.inr List.mem_cons_self
      · exact Or.inr (List.mem_cons_of_mem c h)

theorem getElem?_writeAt_of_notMem {k : Nat} {ks : List Nat} (hk : k ∉ ks) (t : List (List α)) (bs : List (List α)) :
    (writeAt t ks bs)[k]? = t[k]? := by
  induction ks generalizing t bs with
  | nil => rw [writeAt]
  | cons j ks ih =>
    cases bs with
    | nil => rfl
    | cons b bs =>
      rw [List.mem_cons, not_or] at hk
      rw [writeAt, ih hk.2, List.getElem?_set_ne (Ne.symm hk.1)]

theorem getElem?_writeAt {ks : List Nat} (hks : ks.Nodup) {t : List (List α)} (hlt : ∀ k ∈ ks, k < t.length)
    {bs : List (List α)} (hbs : bs.length = ks.length) {i : Nat} {k : Nat} (hk : ks[i]? = some k) :
    (writeAt t ks bs)[k]? = bs[i]? := by
  induction ks generalizing t bs i with
  | nil => simp at hk
  | cons j ks ih =>
    cases bs with
    | nil => simp at hbs
    | cons b bs =>
      rw [List.nodup_cons] at hks
      rw [writeAt]
      cases i with
      | zero =>
        rw [List.getElem?_cons_zero, Option.some.injEq] at hk
        subst hk
        rw [List.getElem?_cons_zero, getElem?_writeAt_of_notMem hks.1, List.getElem?_set_self (hlt j List.mem_cons_self)]
      | succ i =>
        rw [List.getElem?_cons_succ] at hk ⊢
        refine ih hks.2 (fun k hk => ?_) (by simpa using hbs) hk
        rw [List.length_set]
        exact hlt k (List.mem_cons_of_mem j hk)

theorem readAt_set_of_notMem {k : Nat} {ks : List Nat} (hk : k ∉ ks) (t : List (List α)) (b : List α) :
    readAt (t.set k b) ks = readAt t ks := by
  unfold readAt
  apply List.map_congr_left
  intro j hj
  rw [List.getD_eq_getElem?_getD, List.getD_eq_getElem?_getD, List.getElem?_set_ne]
  rintro rfl
  exact hk hj

theorem readAt_writeAt {ks : List Nat} (hks : ks.Nodup) {t : List (List α)} (hlt : ∀ k ∈ ks, k < t.length)
    {bs : List (List α)} (hbs : bs.length = ks.length) : readAt (writeAt t ks bs) ks = bs := by
  apply List.ext_getElem?
  intro i
  unfold readAt
  rw [List.getElem?_map]
  cases hk : ks[i]? with
  | none =>
    rw [List.getElem?_eq_none_iff] at hk
    rw [List.getElem?_eq_none (hbs.trans_le hk), Option.map_none]
  | some k =>
    obtain ⟨hi, -⟩ := List.getElem?_eq_some_iff.mp hk
    have hb := List.getElem?_eq_getElem (hbs ▸ hi : i < bs.length)
    rw [Option.map_some, List.getD_eq_getElem?_getD, getElem?_writeAt hks hlt hbs hk, hb, Option.getD_some]

theorem writeAt_readAt {t : List (List α)} {ks : List Nat} (hlt : ∀ k ∈ ks, k < t.length) :
    writeAt t ks (readAt t ks) = t := by
  induction ks with
  | nil => rfl
  | cons k ks ih =>
    have hk := hlt k List.mem_cons_self
    have hset : t.set k (t.getD k []) = t := by
      rw [List.getD_eq_getElem _ _ hk, List.set_getElem_self]
    change writeAt (t.set k (t.getD k [])) ks (readAt t ks) = t
    rw [hset]
    exact ih fun j hj => hlt j (List.mem_cons_of_mem k hj)

theorem flatten_set_perm {t : List (List α)} {k : Nat} (hk : k < t.length) (b : List α) :
    ((t.set k b).flatten ++ t.getD k []).Perm (t.flatten ++ b) := by
  induction t generalizing k with
  | nil => simp at hk
  | cons c t ih =>
    cases k with
    | zero =>
      simp only [List.set_cons_zero, List.flatten_cons, List.getD_cons_zero]
      apply List.perm_append_comm.trans
      rw [List.append_assoc]
      exact List.perm_append_comm.append_left c
    | succ k =>
      simp only [List.set_cons_succ, List.flatten_cons, List.getD_cons_succ, List.append_assoc]
      exact (ih (by simpa using hk)).append_left c

/-- Overwriting buckets swaps their old contents for the new ones. -/
theorem writeAt_perm {ks : List Nat} (hks : ks.Nodup) {t : List (List α)} (hlt : ∀ k ∈ ks, k < t.length)
    {bs : List (List α)} (hbs : bs.length = ks.length) :
    ((writeAt t ks bs).flatten ++ (readAt t ks).flatten).Perm (t.flatten ++ bs.flatten) := by
  induction ks generalizing t bs with
  | nil =>
    rw [List.length_nil, List.length_eq_zero_iff] at hbs
    subst hbs
    exact List.Perm.refl _
  | cons k ks ih =>
    cases bs with
    | nil => simp at hbs
    | cons b bs =>
      rw [List.nodup_cons] at hks
      have hlt' : ∀ j ∈ ks, j < (t.set k b).length := fun j hj => by
        rw [List.length_set]
        exact hlt j (List.mem_cons_of_mem k hj)
      have hlen : bs.length = ks.length := by simpa using hbs
      have hrest := ih hks.2 hlt' hlen
      rw [readAt_set_of_notMem hks.1] at hrest
      have hone := flatten_set_perm (hlt k List.mem_cons_self) b
      have hread : (readAt t (k :: ks)).flatten = t.getD k [] ++ (readAt t ks).flatten := rfl
      rw [writeAt, hread, List.flatten_cons]
      calc (writeAt (t.set k b) ks bs).flatten ++ (t.getD k [] ++ (readAt t ks).flatten)
          |>.Perm ((writeAt (t.set k b) ks bs).flatten ++ (readAt t ks).flatten ++ t.getD k []) := by
            rw [List.append_assoc]
            exact List.perm_append_comm.append_left _
        _ |>.Perm ((t.set k b).flatten ++ bs.flatten ++ t.getD k []) := hrest.append_right _
        _ |>.Perm ((t.set k b).flatten ++ t.getD k [] ++ bs.flatten) := by
            rw [List.append_assoc, List.append_assoc]
            exact List.perm_append_comm.append_left _
        _ |>.Perm (t.flatten ++ b ++ bs.flatten) := hone.append_right _
        _ |>.Perm (t.flatten ++ (b ++ bs.flatten)) := by rw [List.append_assoc]

end FOSketch.Slots
