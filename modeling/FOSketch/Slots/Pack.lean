import FOSketch.Slots.Basic

/-!
# Packing a sorted list into buckets

Elements that come in the order of their keys are put, group by group, into the places `0`, `1`, … of the bucket with
their key (`pack`); those beyond the size of a bucket get no place (`skipped`). The places taken in a bucket are its
first ones (`pack_below`), all of them if an element was skipped (`pack_full`), and everything is packed exactly if no
group is larger than a bucket (`length_pack_eq_iff`). Elements put into free places that are all different are added to
the occupants (`occupants_putAll`).
-/

namespace FOSketch.Slots

variable {α : Type*}

abbrev Put (α : Type*) := Nat × Nat × α

section Pack
variable (key : α → Nat) (m : Nat)

/-- `pre` and `count` are the key and the place of the element before. -/
def pack : Option Nat → Nat → List α → List (Put α)
  | _, _, [] => []
  | pre, count, x :: xs =>
    if pre = some (key x) then
      if m ≤ count + 1 then pack pre (count + 1) xs else (key x, count + 1, x) :: pack pre (count + 1) xs
    else (key x, 0, x) :: pack (some (key x)) 0 xs

/-- The elements that find the bucket of their key full. -/
def skipped : Option Nat → Nat → List α → List α
  | _, _, [] => []
  | pre, count, x :: xs =>
    if pre = some (key x) then
      if m ≤ count + 1 then x :: skipped pre (count + 1) xs else skipped pre (count + 1) xs
    else skipped (some (key x)) 0 xs

/-- Place `j` of bucket `k` gets an element, or one before the list has it. -/
def Taken (pre : Option Nat) (count : Nat) (xs : List α) (k j : Nat) : Prop :=
  (∃ p ∈ pack key m pre count xs, p.1 = k ∧ p.2.1 = j) ∨ (pre = some k ∧ j ≤ count)

variable {key m}

theorem taken_none {count k j : Nat} {xs : List α} (h : Taken key m none count xs k j) :
    ∃ p ∈ pack key m none count xs, p.1 = k ∧ p.2.1 = j :=
  h.resolve_right fun h => absurd h.1 (by simp)

/-- Every element gets a place or is skipped. -/
theorem pack_append_skipped (pre : Option Nat) (count : Nat) (xs : List α) :
    (((pack key m pre count xs).map fun p => p.2.2) ++ skipped key m pre count xs).Perm xs := by
  induction xs generalizing pre count with
  | nil => exact List.Perm.refl _
  | cons x xs ih =>
    unfold pack skipped
    split_ifs
    · exact List.perm_middle.trans ((ih _ _).cons x)
    · exact (ih _ _).cons x
    · exact (ih _ _).cons x

theorem Taken.cons {pre : Option Nat} {count k j : Nat} {x : α} {xs : List α} (hj : j < m)
    (h : if pre = some (key x) then Taken key m pre (count + 1) xs k j else Taken key m (some (key x)) 0 xs k j) :
    Taken key m pre count (x :: xs) k j := by
  unfold Taken at h ⊢
  unfold pack
  split_ifs at h ⊢ with h1 h2
  · rcases h with h | ⟨h, hle⟩
    · exact Or.inl h
    · exact Or.inr ⟨h, by omega⟩
  · rcases h with ⟨p, hp, h⟩ | ⟨h, hle⟩
    · exact Or.inl ⟨p, List.mem_cons_of_mem _ hp, h⟩
    · rcases Nat.lt_or_ge count j with hlt | hge
      · exact Or.inl ⟨_, List.mem_cons_self, by rw [h, Option.some.injEq] at h1; exact h1.symm, by dsimp only; omega⟩
      · exact Or.inr ⟨h, hge⟩
  · rcases h with ⟨p, hp, h⟩ | ⟨h, hle⟩
    · exact Or.inl ⟨p, List.mem_cons_of_mem _ hp, h⟩
    · exact Or.inl ⟨_, List.mem_cons_self, Option.some.inj h, by dsimp only; omega⟩

/-- The places below a taken one are taken. -/
theorem pack_below {pre : Option Nat} {count j : Nat} {xs : List α} {p : Put α} (h : p ∈ pack key m pre count xs)
    (hp : p.2.1 < m) (hj : j < p.2.1) : Taken key m pre count xs p.1 j := by
  induction xs generalizing pre count with
  | nil => simp [pack] at h
  | cons x xs ih =>
    apply Taken.cons (by omega)
    unfold pack at h
    split_ifs at h ⊢ with h1 h2
    · exact ih h
    · rcases List.mem_cons.mp h with rfl | h
      · exact Or.inr ⟨h1, by dsimp only at hj; omega⟩
      · exact ih h
    · rcases List.mem_cons.mp h with rfl | h
      · exact absurd hj (Nat.not_lt_zero j)
      · exact ih h

/-- **A bucket that skips an element is full.** -/
theorem pack_full {pre : Option Nat} {count j : Nat} {xs : List α} {x : α} (h : x ∈ skipped key m pre count xs)
    (hj : j < m) : Taken key m pre count xs (key x) j := by
  induction xs generalizing pre count with
  | nil => simp [skipped] at h
  | cons y xs ih =>
    apply Taken.cons hj
    unfold skipped at h
    split_ifs at h ⊢ with h1 h2
    · rcases List.mem_cons.mp h with rfl | h
      · exact Or.inr ⟨h1, by omega⟩
      · exact ih h
    · exact ih h
    · exact ih h

theorem pack_sublist (pre : Option Nat) (count : Nat) (xs : List α) :
    ((pack key m pre count xs).map fun p => p.2.2).Sublist xs := by
  induction xs generalizing pre count with
  | nil => exact List.Sublist.slnil
  | cons x xs ih =>
    unfold pack
    split_ifs
    · exact (ih _ _).cons x
    · exact (ih _ _).cons_cons x
    · exact (ih _ _).cons_cons x

theorem mem_pack {pre : Option Nat} {count : Nat} {xs : List α} {p : Put α} (hm : 0 < m)
    (h : p ∈ pack key m pre count xs) : p.2.2 ∈ xs ∧ p.1 = key p.2.2 ∧ p.2.1 < m := by
  induction xs generalizing pre count with
  | nil => simp [pack] at h
  | cons x xs ih =>
    unfold pack at h
    split_ifs at h
    · obtain ⟨h1, h2⟩ := ih h
      exact ⟨List.mem_cons_of_mem x h1, h2⟩
    · rcases List.mem_cons.mp h with rfl | h
      · exact ⟨List.mem_cons_self, rfl, by dsimp only; omega⟩
      · obtain ⟨h1, h2⟩ := ih h
        exact ⟨List.mem_cons_of_mem x h1, h2⟩
    · rcases List.mem_cons.mp h with rfl | h
      · exact ⟨List.mem_cons_self, rfl, hm⟩
      · obtain ⟨h1, h2⟩ := ih h
        exact ⟨List.mem_cons_of_mem x h1, h2⟩

/-- What follows goes behind the element before, or to a later bucket. -/
theorem pack_after {k count : Nat} {xs : List α} (hs : xs.Pairwise fun x y => key x ≤ key y)
    (hk : ∀ x ∈ xs, k ≤ key x) {p : Put α} (h : p ∈ pack key m (some k) count xs) :
    k < p.1 ∨ (p.1 = k ∧ count < p.2.1) := by
  induction xs generalizing k count with
  | nil => simp [pack] at h
  | cons x xs ih =>
    obtain ⟨hx, hs⟩ := List.pairwise_cons.mp hs
    have hkx := hk x List.mem_cons_self
    have hrest := fun y hy => hk y (List.mem_cons_of_mem x hy)
    unfold pack at h
    split_ifs at h with h1 h2
    · have := ih hs hrest h
      omega
    · rw [Option.some.injEq] at h1
      rcases List.mem_cons.mp h with rfl | h
      · dsimp only
        omega
      · have := ih hs hrest h
        omega
    · rw [Option.some.injEq] at h1
      rcases List.mem_cons.mp h with rfl | h
      · dsimp only
        omega
      · have := ih hs hx h
        omega

theorem pack_distinct {pre : Option Nat} {count : Nat} {xs : List α} (hs : xs.Pairwise fun x y => key x ≤ key y)
    (hpre : ∀ k, pre = some k → ∀ x ∈ xs, k ≤ key x) :
    (pack key m pre count xs).Pairwise fun p p' => p.1 ≠ p'.1 ∨ p.2.1 ≠ p'.2.1 := by
  induction xs generalizing pre count with
  | nil => exact List.Pairwise.nil
  | cons x xs ih =>
    obtain ⟨hx, hs⟩ := List.pairwise_cons.mp hs
    have hrest : ∀ k, pre = some k → ∀ y ∈ xs, k ≤ key y := fun k hk y hy => hpre k hk y (List.mem_cons_of_mem x hy)
    unfold pack
    split_ifs with h1 h2
    · exact ih hs hrest
    · refine List.pairwise_cons.mpr ⟨fun p hp => ?_, ih hs hrest⟩
      rw [h1] at hp
      have := pack_after hs hx hp
      dsimp only
      omega
    · refine List.pairwise_cons.mpr ⟨fun p hp => ?_, ih hs ?_⟩
      · have := pack_after hs hx hp
        dsimp only
        omega
      · rintro k hk y hy
        rw [← Option.some.inj hk]
        exact hx y hy

/-- How many elements have the key `k`. -/
def groupSize (key : α → Nat) (k : Nat) (xs : List α) : Nat := xs.countP fun x => key x == k

theorem groupSize_cons_self {k : Nat} {x : α} (h : key x = k) (xs : List α) :
    groupSize key k (x :: xs) = groupSize key k xs + 1 := List.countP_cons_of_pos (beq_iff_eq.mpr h)

theorem groupSize_cons_of_ne {k : Nat} {x : α} (h : key x ≠ k) (xs : List α) :
    groupSize key k (x :: xs) = groupSize key k xs :=
  List.countP_cons_of_neg (by rw [beq_iff_eq]; exact h)

/-- One element more: its own group has to leave a place for it. -/
theorem groupSize_cons_le_iff (x : α) (xs : List α) :
    (∀ j, groupSize key j (x :: xs) ≤ m) ↔
      (∀ j ≠ key x, groupSize key j xs ≤ m) ∧ groupSize key (key x) xs + 1 ≤ m := by
  constructor
  · intro h
    constructor
    · intro j hj
      rw [← groupSize_cons_of_ne (Ne.symm hj)]
      exact h j
    · rw [← groupSize_cons_self rfl]
      exact h (key x)
  · rintro ⟨hother, hself⟩ j
    by_cases hj : key x = j
    · rw [groupSize_cons_self hj, ← hj]
      exact hself
    · rw [groupSize_cons_of_ne hj]
      exact hother j (Ne.symm hj)

theorem length_pack_some (hm : 0 < m) {k count : Nat} (hcount : count < m) {xs : List α}
    (hs : xs.Pairwise fun x y => key x ≤ key y) (hk : ∀ x ∈ xs, k ≤ key x) :
    (pack key m (some k) count xs).length = xs.length ↔
      (∀ j ≠ k, groupSize key j xs ≤ m) ∧ groupSize key k xs + (count + 1) ≤ m := by
  induction xs generalizing k count with
  | nil => simpa [pack, groupSize] using hcount
  | cons x xs ih =>
    obtain ⟨hx, hs⟩ := List.pairwise_cons.mp hs
    have hrest := fun y hy => hk y (List.mem_cons_of_mem x hy)
    unfold pack
    simp only [Option.some.injEq]
    by_cases h1 : k = key x
    · rw [if_pos h1, groupSize_cons_self h1.symm]
      by_cases h2 : m ≤ count + 1
      · have hle := (pack_sublist (some k) (count + 1) xs : List.Sublist ((pack key m _ _ xs).map fun p => p.2.2) xs).length_le
        rw [List.length_map] at hle
        rw [if_pos h2, List.length_cons]
        exact iff_of_false (by omega) (by omega)
      · rw [if_neg h2, List.length_cons, List.length_cons, Nat.succ_inj, ih (by omega) hs hrest]
        refine and_congr (forall₂_congr fun j hj => ?_) (by omega)
        rw [groupSize_cons_of_ne (by rw [← h1]; exact Ne.symm hj)]
    · rw [if_neg h1, List.length_cons, List.length_cons, Nat.succ_inj, ih hm hs hx]
      have hlt : k < key x := lt_of_le_of_ne (hk x List.mem_cons_self) h1
      have hzero : groupSize key k (x :: xs) = 0 := by
        rw [groupSize_cons_of_ne (Ne.symm h1)]
        apply List.countP_eq_zero.mpr
        intro y hy
        have := hx y hy
        rw [beq_iff_eq]
        omega
      rw [hzero]
      refine (groupSize_cons_le_iff x xs).symm.trans ⟨fun h => ⟨fun j _ => h j, by omega⟩, fun h j => ?_⟩
      by_cases hj : j = k
      · rw [hj, hzero]
        exact Nat.zero_le m
      · exact h.1 j hj

/-- **Everything is packed** if and only if no group is larger than a bucket. -/
theorem length_pack_eq_iff (hm : 0 < m) (count : Nat) {xs : List α} (hs : xs.Pairwise fun x y => key x ≤ key y) :
    (pack key m none count xs).length = xs.length ↔ ∀ j, groupSize key j xs ≤ m := by
  cases xs with
  | nil => simp [pack, groupSize]
  | cons x xs =>
    obtain ⟨hx, hs⟩ := List.pairwise_cons.mp hs
    unfold pack
    rw [if_neg (by simp), List.length_cons, List.length_cons, Nat.succ_inj, length_pack_some hm hm hs hx]
    exact (groupSize_cons_le_iff x xs).symm

end Pack

/-! ## Putting elements into buckets -/

def put (t : List (List α)) (p : Put α) : List (List α) := t.modify p.1 fun bucket => bucket.set p.2.1 p.2.2

def putAll (t : List (List α)) (ps : List (Put α)) : List (List α) := ps.foldl put t

@[simp] theorem putAll_nil (t : List (List α)) : putAll t [] = t := rfl

@[simp] theorem putAll_cons (t : List (List α)) (p : Put α) (ps : List (Put α)) :
    putAll t (p :: ps) = putAll (put t p) ps := rfl

theorem putAll_append (t : List (List α)) (ps ps' : List (Put α)) : putAll t (ps ++ ps') = putAll (putAll t ps) ps' :=
  List.foldl_append

def At (t : List (List α)) (k j : Nat) (x : α) : Prop := ∃ bucket, t[k]? = some bucket ∧ bucket[j]? = some x

theorem getElem?_put (t : List (List α)) (p : Put α) (k : Nat) :
    (put t p)[k]? = if p.1 = k then t[k]?.map fun bucket => bucket.set p.2.1 p.2.2 else t[k]? := by
  unfold put
  rw [List.getElem?_modify]
  by_cases h : p.1 = k
  · rw [if_pos h]
    cases t[k]? <;> simp [h]
  · rw [if_neg h]
    cases t[k]? <;> simp [h]

theorem At.put_of_ne {t : List (List α)} {p : Put α} {k j : Nat} {x : α} (h : At t k j x) (hne : p.1 ≠ k ∨ p.2.1 ≠ j) :
    At (put t p) k j x := by
  obtain ⟨bucket, hk, hj⟩ := h
  by_cases he : p.1 = k
  · have hpj : p.2.1 ≠ j := hne.resolve_left (not_not.mpr he)
    refine ⟨bucket.set p.2.1 p.2.2, ?_, ?_⟩
    · rw [getElem?_put, if_pos he, hk, Option.map_some]
    · rw [List.getElem?_set_ne hpj, hj]
  · exact ⟨bucket, by rw [getElem?_put, if_neg he, hk], hj⟩

theorem At.put_self {t : List (List α)} {p : Put α} {x : α} (h : At t p.1 p.2.1 x) : At (put t p) p.1 p.2.1 p.2.2 := by
  obtain ⟨bucket, hk, hj⟩ := h
  refine ⟨bucket.set p.2.1 p.2.2, ?_, ?_⟩
  · rw [getElem?_put, if_pos rfl, hk, Option.map_some]
  · exact List.getElem?_set_self (List.getElem?_eq_some_iff.mp hj).1

@[simp] theorem length_put (t : List (List α)) (p : Put α) : (put t p).length = t.length := List.length_modify ..

@[simp] theorem length_putAll (t : List (List α)) (ps : List (Put α)) : (putAll t ps).length = t.length := by
  induction ps generalizing t with
  | nil => rfl
  | cons p ps ih => rw [putAll_cons, ih, length_put]

theorem length_bucket_putAll {t : List (List α)} {ps : List (Put α)} {k : Nat} {bucket : List α}
    (hk : (putAll t ps)[k]? = some bucket) : ∃ old, t[k]? = some old ∧ bucket.length = old.length := by
  induction ps generalizing t with
  | nil => exact ⟨bucket, hk, rfl⟩
  | cons p ps ih =>
    obtain ⟨mid, hmid, hlen⟩ := ih hk
    rw [getElem?_put] at hmid
    split_ifs at hmid
    · obtain ⟨old, hold, rfl⟩ := Option.map_eq_some_iff.mp hmid
      exact ⟨old, hold, by rw [hlen, List.length_set]⟩
    · exact ⟨mid, hmid, hlen⟩

theorem At.of_put {t : List (List α)} {p : Put α} {k j : Nat} {x : α} (h : At (put t p) k j x) :
    At t k j x ∨ p = (k, j, x) := by
  obtain ⟨bucket, hk, hj⟩ := h
  rw [getElem?_put] at hk
  split_ifs at hk with he
  · obtain ⟨old, hold, rfl⟩ := Option.map_eq_some_iff.mp hk
    rw [List.getElem?_set] at hj
    split_ifs at hj with hpj
    · exact Or.inr (Prod.ext he (Prod.ext hpj (Option.some.inj hj)))
    · exact Or.inl ⟨old, hold, hj⟩
  · exact Or.inl ⟨bucket, hk, hj⟩

/-- What is in a place was there before or was put there. -/
theorem At.of_putAll {t : List (List α)} {ps : List (Put α)} {k j : Nat} {x : α} (h : At (putAll t ps) k j x) :
    At t k j x ∨ (k, j, x) ∈ ps := by
  induction ps generalizing t with
  | nil => exact Or.inl h
  | cons p ps ih =>
    rcases ih h with h | h
    · exact h.of_put.imp id fun he => List.mem_cons.mpr (Or.inl he.symm)
    · exact Or.inr (List.mem_cons_of_mem p h)

/-- A place that nothing is put into keeps its element. -/
theorem At.putAll {t : List (List α)} {k j : Nat} {x : α} (h : At t k j x) {ps : List (Put α)}
    (hne : ∀ p ∈ ps, p.1 ≠ k ∨ p.2.1 ≠ j) : At (putAll t ps) k j x := by
  induction ps generalizing t with
  | nil => exact h
  | cons p ps ih =>
    exact ih (h.put_of_ne (hne p List.mem_cons_self)) fun q hq => hne q (List.mem_cons_of_mem p hq)

section Free
variable {real : α → Bool}

theorem occupants_set {bucket : List α} {j : Nat} {x y : α} (hj : bucket[j]? = some y) (hy : real y = false)
    (hx : real x = true) : (occupants real (bucket.set j x)).Perm (x :: occupants real bucket) := by
  induction bucket generalizing j with
  | nil => simp at hj
  | cons s bucket ih =>
    cases j with
    | zero =>
      obtain rfl : s = y := by simpa using hj
      rw [List.set_cons_zero, occupants_cons_real hx, occupants_cons_hole hy]
    | succ j =>
      have hrest := ih (j := j) (by simpa using hj)
      rw [List.set_cons_succ, occupants_cons, occupants_cons]
      split_ifs
      · exact (hrest.cons s).trans (List.Perm.swap x s _)
      · exact hrest

theorem occupants_put {t : List (List α)} {p : Put α} {y : α} (h : At t p.1 p.2.1 y) (hy : real y = false)
    (hx : real p.2.2 = true) : (occupants real (put t p).flatten).Perm (p.2.2 :: occupants real t.flatten) := by
  obtain ⟨bucket, hk, hj⟩ := h
  obtain ⟨k, j, x⟩ := p
  unfold put
  dsimp only at *
  induction t generalizing k with
  | nil => simp at hk
  | cons b t ih =>
    cases k with
    | zero =>
      obtain rfl : b = bucket := by simpa using hk
      rw [List.modify_zero_cons, List.flatten_cons, List.flatten_cons, occupants_append, occupants_append]
      exact (occupants_set hj hy hx).append_right _
    | succ k =>
      rw [List.modify_succ_cons, List.flatten_cons, List.flatten_cons, occupants_append, occupants_append]
      exact ((ih k (by simpa using hk)).append_left _).trans List.perm_middle

/-- **Elements put into free places** that are all different are added to the occupants. -/
theorem occupants_putAll {t : List (List α)} {ps : List (Put α)} (hreal : ∀ p ∈ ps, real p.2.2 = true)
    (hfree : ∀ p ∈ ps, ∃ y, At t p.1 p.2.1 y ∧ real y = false)
    (hps : ps.Pairwise fun p p' => p.1 ≠ p'.1 ∨ p.2.1 ≠ p'.2.1) :
    (occupants real (putAll t ps).flatten).Perm ((ps.map fun p => p.2.2) ++ occupants real t.flatten) ∧
      ∀ p ∈ ps, At (putAll t ps) p.1 p.2.1 p.2.2 := by
  induction ps generalizing t with
  | nil => exact ⟨List.Perm.refl _, by simp⟩
  | cons p ps ih =>
    obtain ⟨hp, hps⟩ := List.pairwise_cons.mp hps
    obtain ⟨y, hy, hhole⟩ := hfree p List.mem_cons_self
    have hfree' : ∀ q ∈ ps, ∃ y, At (put t p) q.1 q.2.1 y ∧ real y = false := by
      intro q hq
      obtain ⟨z, hz, hz'⟩ := hfree q (List.mem_cons_of_mem p hq)
      exact ⟨z, hz.put_of_ne (hp q hq), hz'⟩
    obtain ⟨h1, h2⟩ := ih (fun q hq => hreal q (List.mem_cons_of_mem p hq)) hfree' hps
    have hone := occupants_put hy hhole (hreal p List.mem_cons_self)
    constructor
    · rw [putAll_cons, List.map_cons, List.cons_append]
      exact (h1.trans (hone.append_left _)).trans List.perm_middle
    · intro q hq
      rcases List.mem_cons.mp hq with rfl | hq
      · exact (hy.put_self).putAll fun r hr => (hp r hr).imp Ne.symm Ne.symm
      · exact h2 q hq

end Free

end FOSketch.Slots
