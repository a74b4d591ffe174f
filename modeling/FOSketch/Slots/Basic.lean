import Mathlib

/-!
# Slots

An array whose slots hold real elements or holes. Elements enter at the first hole (`insertFirst`, `insertAll`) and leave
by filling buckets: each place of a bucket takes the first element that is eligible for it (`takeFirst`, `fillBucket`,
`rebuild`). No operation loses or doubles an element, which is stated as a permutation of the `occupants`.
-/

namespace FOSketch.Slots

variable {α : Type*} (real : α → Bool)

/-! ## Occupants -/

/-- The real elements, in slot order. -/
def occupants (l : List α) : List α := l.filter real

@[simp] theorem occupants_nil : occupants real [] = [] := rfl

theorem occupants_cons (s : α) (l : List α) :
    occupants real (s :: l) = if real s then s :: occupants real l else occupants real l := by
  unfold occupants
  rw [List.filter_cons]

@[simp] theorem occupants_append (l r : List α) : occupants real (l ++ r) = occupants real l ++ occupants real r :=
  List.filter_append _ _

variable {real}

theorem occupants_cons_real {s : α} (h : real s = true) (l : List α) :
    occupants real (s :: l) = s :: occupants real l := by
  rw [occupants_cons, if_pos h]

theorem occupants_cons_hole {s : α} (h : real s = false) (l : List α) : occupants real (s :: l) = occupants real l := by
  rw [occupants_cons, h, if_neg Bool.false_ne_true]

theorem mem_occupants {s : α} {l : List α} : s ∈ occupants real l ↔ s ∈ l ∧ real s = true := List.mem_filter

theorem occupants_perm {l r : List α} (h : l.Perm r) : (occupants real l).Perm (occupants real r) := h.filter _

theorem occupants_of_holes {l : List α} (h : ∀ s ∈ l, real s = false) : occupants real l = [] := by
  apply List.filter_eq_nil_iff.mpr
  intro s hs
  rw [h s hs]
  exact Bool.false_ne_true

theorem occupants_of_full {l : List α} (h : ∀ s ∈ l, real s = true) : occupants real l = l :=
  List.filter_eq_self.mpr h

theorem length_occupants_le (l : List α) : (occupants real l).length ≤ l.length := List.length_filter_le _ _

theorem exists_hole {l : List α} (h : (occupants real l).length < l.length) : ∃ s ∈ l, real s = false := by
  by_contra hno
  push Not at hno
  have hfull : ∀ s ∈ l, real s = true := fun s hs => by simpa using hno s hs
  rw [occupants_of_full hfull] at h
  exact lt_irrefl _ h

/-- The elements before the first hole are real. -/
theorem exists_first_hole {l : List α} (h : ∃ s ∈ l, real s = false) :
    ∃ l₁ s l₂, l = l₁ ++ s :: l₂ ∧ (∀ t ∈ l₁, real t = true) ∧ real s = false := by
  obtain ⟨t, ht, hr⟩ := h
  obtain ⟨s, l₁, l₂, hl₁, hs, hl, -⟩ := List.exists_of_eraseP (p := fun s => !real s) ht (by simpa using hr)
  exact ⟨l₁, s, l₂, hl, fun u hu => by simpa using hl₁ u hu, by simpa using hs⟩

theorem length_occupants_lt {l : List α} (h : ∃ s ∈ l, real s = false) : (occupants real l).length < l.length := by
  obtain ⟨s, hs, hr⟩ := h
  apply List.length_filter_lt_length_iff_exists.mpr
  exact ⟨s, hs, by rw [hr]; exact Bool.false_ne_true⟩

/-- No element at slot `n` or later. -/
def HolesFrom (real : α → Bool) (n : Nat) (l : List α) : Prop := ∀ s ∈ l.drop n, real s = false

theorem HolesFrom.mono {n m : Nat} {l : List α} (h : HolesFrom real n l) (hnm : n ≤ m) : HolesFrom real m l := by
  intro s hs
  apply h s
  rw [← Nat.sub_add_cancel hnm, Nat.add_comm, ← List.drop_drop] at hs
  exact List.mem_of_mem_drop hs

theorem HolesFrom.occupants_take {n : Nat} {l : List α} (h : HolesFrom real n l) :
    occupants real (l.take n) = occupants real l := by
  conv_rhs => rw [← List.take_append_drop n l, occupants_append, occupants_of_holes h, List.append_nil]

/-- If every slot before `n` is taken and none from there on, the elements are those slots. -/
theorem HolesFrom.take_eq {n : Nat} {l : List α} (h : HolesFrom real n l) (hfull : ∀ s ∈ l.take n, real s = true) :
    l.take n = occupants real l := by
  rw [← h.occupants_take, occupants_of_full hfull]

theorem holesFrom_append {l r : List α} (h : ∀ s ∈ r, real s = false) : HolesFrom real l.length (l ++ r) := by
  intro s hs
  rw [List.drop_left] at hs
  exact h s hs

/-! ## Insertion -/

section Insert
variable (real)

/-- `x` goes to the first hole. -/
def insertFirst (x : α) : List α → List α
  | [] => []
  | s :: l => if real s then s :: insertFirst x l else x :: l

/-- The real elements of `xs` go to the first holes, one after the other. -/
def insertAll (xs l : List α) : List α := xs.foldl (fun l x => if real x then insertFirst real x l else l) l

@[simp] theorem insertFirst_nil (x : α) : insertFirst real x [] = [] := rfl

@[simp] theorem insertAll_nil (l : List α) : insertAll real [] l = l := rfl

theorem insertAll_cons (x : α) (xs l : List α) :
    insertAll real (x :: xs) l = insertAll real xs (if real x then insertFirst real x l else l) := rfl

variable {real}

theorem insertFirst_cons_real {s : α} (h : real s = true) (x : α) (l : List α) :
    insertFirst real x (s :: l) = s :: insertFirst real x l := by
  rw [insertFirst, if_pos h]

theorem insertFirst_cons_hole {s : α} (h : real s = false) (x : α) (l : List α) :
    insertFirst real x (s :: l) = x :: l := by
  rw [insertFirst, h, if_neg Bool.false_ne_true]

@[simp] theorem length_insertFirst (x : α) (l : List α) : (insertFirst real x l).length = l.length := by
  induction l with
  | nil => rfl
  | cons s l ih =>
    unfold insertFirst
    split_ifs
    · simp only [List.length_cons, ih]
    · simp only [List.length_cons]

@[simp] theorem length_insertAll (xs l : List α) : (insertAll real xs l).length = l.length := by
  induction xs generalizing l with
  | nil => rfl
  | cons x xs ih =>
    rw [insertAll_cons, ih]
    split_ifs
    · exact length_insertFirst x l
    · rfl

theorem insertFirst_append_of_full {l : List α} (h : ∀ s ∈ l, real s = true) (x : α) (r : List α) :
    insertFirst real x (l ++ r) = l ++ insertFirst real x r := by
  induction l with
  | nil => rfl
  | cons s l ih =>
    rw [List.cons_append, insertFirst_cons_real (h s List.mem_cons_self), ih fun t ht => h t (List.mem_cons_of_mem s ht),
      List.cons_append]

/-- An element that enters is one more occupant. -/
theorem occupants_insertFirst {x : α} (hx : real x = true) {l : List α} (h : ∃ s ∈ l, real s = false) :
    (occupants real (insertFirst real x l)).Perm (x :: occupants real l) := by
  induction l with
  | nil => simp at h
  | cons s l ih =>
    cases hs : real s with
    | false => rw [insertFirst_cons_hole hs, occupants_cons_real hx, occupants_cons_hole hs]
    | true =>
      have hl : ∃ t ∈ l, real t = false := by
        obtain ⟨t, ht, hr⟩ := h
        rcases List.mem_cons.mp ht with rfl | ht
        · rw [hs] at hr
          exact absurd hr (by decide)
        · exact ⟨t, ht, hr⟩
      rw [insertFirst_cons_real hs, occupants_cons_real hs, occupants_cons_real hs]
      exact ((ih hl).cons s).trans (List.Perm.swap x s _)

/-- The elements that enter are added to the occupants, as long as the slots hold them all. -/
theorem occupants_insertAll {xs l : List α} (h : (occupants real xs).length + (occupants real l).length ≤ l.length) :
    (occupants real (insertAll real xs l)).Perm (occupants real xs ++ occupants real l) := by
  induction xs generalizing l with
  | nil => exact List.Perm.refl _
  | cons x xs ih =>
    rw [insertAll_cons]
    cases hx : real x with
    | false =>
      rw [occupants_cons_hole hx] at h ⊢
      rw [if_neg Bool.false_ne_true]
      exact ih h
    | true =>
      rw [occupants_cons_real hx] at h ⊢
      simp only [List.length_cons] at h
      rw [if_pos rfl]
      have hp := occupants_insertFirst hx (exists_hole (l := l) (by omega))
      refine (ih ?_).trans ?_
      · rw [hp.length_eq, length_insertFirst, List.length_cons]
        omega
      · rw [List.cons_append]
        exact (hp.append_left _).trans List.perm_middle

/-- While a hole is left before slot `n`, an element that enters goes before slot `n`. -/
theorem HolesFrom.insertFirst {n : Nat} {l : List α} (h : HolesFrom real n l) (hn : ∃ s ∈ l.take n, real s = false)
    (x : α) : HolesFrom real n (insertFirst real x l) := by
  induction l generalizing n with
  | nil => exact h
  | cons s l ih =>
    cases n with
    | zero => simp at hn
    | succ n =>
      cases hs : real s with
      | false => rw [insertFirst_cons_hole hs]; exact h
      | true =>
        rw [insertFirst_cons_real hs]
        apply ih (n := n) h
        obtain ⟨t, ht, hr⟩ := hn
        rcases List.mem_cons.mp ht with rfl | ht
        · rw [hs] at hr
          exact absurd hr (by decide)
        · exact ⟨t, ht, hr⟩

theorem HolesFrom.insertFirst_succ {n : Nat} {l : List α} (h : HolesFrom real n l) (x : α) :
    HolesFrom real (n + 1) (Slots.insertFirst real x l) := by
  induction l generalizing n with
  | nil => intro s hs; simp at hs
  | cons s l ih =>
    unfold Slots.insertFirst
    split_ifs with hs
    · cases n with
      | zero => exact absurd (h s (by simp)) (by rw [hs]; decide)
      | succ n => exact ih (n := n) h
    · cases n with
      | zero => exact fun t ht => h t (List.mem_cons_of_mem s ht)
      | succ n => exact HolesFrom.mono (l := l) (n := n) h (Nat.le_succ n)

end Insert

/-! ## Removal -/

section Take
variable (real)
variable (erase : α → α)

/-- The first real element with `q`; `erase` is what leaves the hole. -/
def takeFirst (q : α → Bool) : List α → Option α × List α
  | [] => (none, [])
  | s :: l => if real s && q s then (some s, erase s :: l) else ((takeFirst q l).1, s :: (takeFirst q l).2)

/-- Every place of the bucket takes the first element with `q` that is left. -/
def fillBucket (q : α → Bool) : List α → List α → List α × List α
  | [], l => ([], l)
  | b :: bs, l =>
    ((takeFirst real erase q l).1.getD b :: (fillBucket q bs (takeFirst real erase q l).2).1,
      (fillBucket q bs (takeFirst real erase q l).2).2)

/-- Buckets `i`, `i + 1`, … are filled, the last one first; `q j` is what bucket `j` accepts. -/
def rebuild (q : Nat → α → Bool) : Nat → List (List α) → List α → List (List α) × List α
  | _, [], l => ([], l)
  | i, b :: bs, l =>
    ((fillBucket real erase (q i) b (rebuild q (i + 1) bs l).2).1 :: (rebuild q (i + 1) bs l).1,
      (fillBucket real erase (q i) b (rebuild q (i + 1) bs l).2).2)

variable {real erase} {q : α → Bool}

@[simp] theorem takeFirst_nil : takeFirst real erase q [] = (none, []) := rfl

theorem takeFirst_cons_pos {s : α} (h : (real s && q s) = true) (l : List α) :
    takeFirst real erase q (s :: l) = (some s, erase s :: l) := by
  rw [takeFirst, if_pos h]

theorem takeFirst_cons_neg {s : α} (h : (real s && q s) = false) (l : List α) :
    takeFirst real erase q (s :: l) = ((takeFirst real erase q l).1, s :: (takeFirst real erase q l).2) := by
  rw [takeFirst, h, if_neg Bool.false_ne_true]

theorem takeFirst_append_of_none {l : List α} (h : ∀ s ∈ l, (real s && q s) = false) (r : List α) :
    takeFirst real erase q (l ++ r) = ((takeFirst real erase q r).1, l ++ (takeFirst real erase q r).2) := by
  induction l with
  | nil => rfl
  | cons s l ih =>
    rw [List.cons_append, takeFirst_cons_neg (h s List.mem_cons_self), ih fun t ht => h t (List.mem_cons_of_mem s ht)]
    rfl

theorem takeFirst_of_none {l : List α} (h : ∀ s ∈ l, (real s && q s) = false) :
    takeFirst real erase q l = (none, l) := by
  rw [← List.append_nil l, takeFirst_append_of_none h [], takeFirst_nil]

theorem takeFirst_append_holes (l : List α) {r : List α} (h : ∀ s ∈ r, real s = false) :
    takeFirst real erase q (l ++ r) = ((takeFirst real erase q l).1, (takeFirst real erase q l).2 ++ r) := by
  induction l with
  | nil =>
    rw [List.nil_append, takeFirst_of_none fun s hs => by rw [h s hs, Bool.false_and]]
    rfl
  | cons s l ih =>
    rw [List.cons_append]
    cases hs : real s && q s with
    | true => rw [takeFirst_cons_pos hs, takeFirst_cons_pos hs, List.cons_append]
    | false => rw [takeFirst_cons_neg hs, takeFirst_cons_neg hs, ih, List.cons_append]

theorem fillBucket_append_holes (bs l : List α) {r : List α} (h : ∀ s ∈ r, real s = false) :
    fillBucket real erase q bs (l ++ r) = ((fillBucket real erase q bs l).1, (fillBucket real erase q bs l).2 ++ r) := by
  induction bs generalizing l with
  | nil => rfl
  | cons b bs ih => simp only [fillBucket, takeFirst_append_holes l h, ih]

theorem rebuild_append_holes (q : Nat → α → Bool) (i : Nat) (bs : List (List α)) (l : List α) {r : List α}
    (h : ∀ s ∈ r, real s = false) :
    rebuild real erase q i bs (l ++ r) = ((rebuild real erase q i bs l).1, (rebuild real erase q i bs l).2 ++ r) := by
  induction bs generalizing i with
  | nil => rfl
  | cons b bs ih => simp only [rebuild, ih, fillBucket_append_holes _ _ h]

/-- What `takeFirst` returns is an element that was there and is eligible. -/
theorem takeFirst_fst_some {l : List α} {s : α} (h : (takeFirst real erase q l).1 = some s) :
    s ∈ l ∧ real s = true ∧ q s = true := by
  induction l with
  | nil => simp at h
  | cons t l ih =>
    cases ht : real t && q t with
    | true =>
      rw [takeFirst_cons_pos ht] at h
      obtain rfl : t = s := by simpa using h
      exact ⟨List.mem_cons_self, by simpa using ht⟩
    | false =>
      rw [takeFirst_cons_neg ht] at h
      obtain ⟨h1, h2⟩ := ih h
      exact ⟨List.mem_cons_of_mem t h1, h2⟩

/-- Where it returns nothing, nothing is eligible. -/
theorem takeFirst_fst_none {l : List α} (h : (takeFirst real erase q l).1 = none) : ∀ s ∈ l, (real s && q s) = false := by
  induction l with
  | nil => exact fun s hs => absurd hs List.not_mem_nil
  | cons t l ih =>
    cases ht : real t && q t with
    | true =>
      rw [takeFirst_cons_pos ht] at h
      exact absurd h (by simp)
    | false =>
      rw [takeFirst_cons_neg ht] at h
      intro s hs
      rcases List.mem_cons.mp hs with rfl | hs
      · exact ht
      · exact ih h s hs

/-- A scan leaves elements and what `erase` made of them. -/
theorem mem_takeFirst_snd {l : List α} {s : α} (h : s ∈ (takeFirst real erase q l).2) :
    s ∈ l ∨ ∃ t ∈ l, s = erase t := by
  induction l with
  | nil => simp at h
  | cons t l ih =>
    unfold takeFirst at h
    split_ifs at h
    · rcases List.mem_cons.mp h with rfl | h
      · exact Or.inr ⟨t, List.mem_cons_self, rfl⟩
      · exact Or.inl (List.mem_cons_of_mem t h)
    · rcases List.mem_cons.mp h with rfl | h
      · exact Or.inl List.mem_cons_self
      · rcases ih h with h | ⟨u, hu, rfl⟩
        · exact Or.inl (List.mem_cons_of_mem t h)
        · exact Or.inr ⟨u, List.mem_cons_of_mem t hu, rfl⟩

/-- What lies behind the element that is taken plays no part. -/
theorem takeFirst_append_of_some {l : List α} (h : ∃ s ∈ l, (real s && q s) = true) (r : List α) :
    takeFirst real erase q (l ++ r) = ((takeFirst real erase q l).1, (takeFirst real erase q l).2 ++ r) := by
  induction l with
  | nil => simp at h
  | cons s l ih =>
    cases hs : real s && q s with
    | true => rw [List.cons_append, takeFirst_cons_pos hs, takeFirst_cons_pos hs, List.cons_append]
    | false =>
      have hl : ∃ t ∈ l, (real t && q t) = true := by
        obtain ⟨t, ht, hr⟩ := h
        rcases List.mem_cons.mp ht with rfl | ht
        · rw [hs] at hr
          exact absurd hr (by decide)
        · exact ⟨t, ht, hr⟩
      rw [List.cons_append, takeFirst_cons_neg hs, takeFirst_cons_neg hs, ih hl, List.cons_append]

@[simp] theorem length_takeFirst (l : List α) : (takeFirst real erase q l).2.length = l.length := by
  induction l with
  | nil => rfl
  | cons s l ih =>
    unfold takeFirst
    split_ifs
    · simp only [List.length_cons]
    · simp only [List.length_cons, ih]

@[simp] theorem length_fillBucket_fst (bs l : List α) : (fillBucket real erase q bs l).1.length = bs.length := by
  induction bs generalizing l with
  | nil => rfl
  | cons b bs ih => simp only [fillBucket, List.length_cons, ih]

@[simp] theorem length_fillBucket_snd (bs l : List α) : (fillBucket real erase q bs l).2.length = l.length := by
  induction bs generalizing l with
  | nil => rfl
  | cons b bs ih => simp only [fillBucket, ih, length_takeFirst]

@[simp] theorem length_rebuild_snd (q : Nat → α → Bool) (i : Nat) (bs : List (List α)) (l : List α) :
    (rebuild real erase q i bs l).2.length = l.length := by
  induction bs generalizing i with
  | nil => rfl
  | cons b bs ih => simp only [rebuild, length_fillBucket_snd, ih]

theorem map_length_rebuild (q : Nat → α → Bool) (i : Nat) (bs : List (List α)) (l : List α) :
    (rebuild real erase q i bs l).1.map List.length = bs.map List.length := by
  induction bs generalizing i with
  | nil => rfl
  | cons b bs ih => simp only [rebuild, List.map_cons, length_fillBucket_fst, ih]

section Holes
variable (herase : ∀ s, real (erase s) = false)
include herase

theorem occupants_takeFirst (q : α → Bool) (l : List α) :
    ((takeFirst real erase q l).1.toList ++ occupants real (takeFirst real erase q l).2).Perm (occupants real l) := by
  induction l with
  | nil => exact List.Perm.refl _
  | cons s l ih =>
    cases hs : real s && q s with
    | true =>
      have hr : real s = true := by
        rw [Bool.and_eq_true] at hs
        exact hs.1
      rw [takeFirst_cons_pos hs, occupants_cons_hole (herase s), occupants_cons_real hr]
      exact List.Perm.refl _
    | false =>
      rw [takeFirst_cons_neg hs]
      cases hr : real s with
      | false => rw [occupants_cons_hole hr, occupants_cons_hole hr]; exact ih
      | true =>
        rw [occupants_cons_real hr, occupants_cons_real hr]
        exact List.perm_middle.trans (ih.cons s)

theorem mem_takeFirst_of_real {l : List α} {s : α} (h : s ∈ (takeFirst real erase q l).2)
    (hs : real s = true) : s ∈ l := by
  rcases mem_takeFirst_snd h with h | ⟨t, -, rfl⟩
  · exact h
  · rw [herase] at hs
    exact absurd hs (by decide)

theorem mem_fillBucket_of_real {bs l : List α} {s : α} (hs : s ∈ (fillBucket real erase q bs l).2) (hr : real s = true) :
    s ∈ l := by
  induction bs generalizing l with
  | nil => exact hs
  | cons b bs ih => exact mem_takeFirst_of_real herase (ih hs) hr

/-- **A bucket is filled as far as possible**: when an eligible element stays, every place is taken. -/
theorem fillBucket_maximal {bs l : List α} {s : α} (hs : s ∈ (fillBucket real erase q bs l).2) (hr : real s = true)
    (hq : q s = true) : ∀ b ∈ (fillBucket real erase q bs l).1, real b = true := by
  induction bs generalizing l with
  | nil => exact fun b hb => absurd hb List.not_mem_nil
  | cons c bs ih =>
    have hstays : s ∈ (takeFirst real erase q l).2 := mem_fillBucket_of_real herase hs hr
    intro b hb
    rcases List.mem_cons.mp hb with rfl | hb
    · cases hf : (takeFirst real erase q l).1 with
      | none =>
        have hno := takeFirst_fst_none hf s (mem_takeFirst_of_real herase hstays hr)
        rw [hr, hq] at hno
        exact absurd hno (by decide)
      | some x => exact (takeFirst_fst_some hf).2.1
    · exact ih hs b hb

theorem rebuild_maximal {q : Nat → α → Bool} {i j : Nat} {bs : List (List α)} {l b : List α} {s : α}
    (hb : (rebuild real erase q i bs l).1[j]? = some b) (hs : s ∈ (rebuild real erase q i bs l).2) (hr : real s = true)
    (hq : q (i + j) s = true) : ∀ c ∈ b, real c = true := by
  induction bs generalizing i j with
  | nil => simp [rebuild] at hb
  | cons d bs ih =>
    simp only [rebuild] at hb hs
    cases j with
    | zero =>
      rw [List.getElem?_cons_zero, Option.some.injEq] at hb
      subst hb
      exact fillBucket_maximal herase hs hr hq
    | succ j =>
      rw [List.getElem?_cons_succ] at hb
      rw [show i + (j + 1) = i + 1 + j by omega] at hq
      exact ih hb (mem_fillBucket_of_real herase hs hr) hq

theorem HolesFrom.takeFirst {n : Nat} {l : List α} (h : HolesFrom real n l) (q : α → Bool) :
    HolesFrom real n (Slots.takeFirst real erase q l).2 := by
  induction l generalizing n with
  | nil => exact h
  | cons s l ih =>
    cases hs : real s && q s with
    | true =>
      rw [takeFirst_cons_pos hs]
      cases n with
      | zero =>
        intro t ht
        rcases List.mem_cons.mp ht with rfl | ht
        · exact herase s
        · exact h t (List.mem_cons_of_mem s ht)
      | succ n => exact h
    | false =>
      rw [takeFirst_cons_neg hs]
      cases n with
      | zero =>
        intro t ht
        rcases List.mem_cons.mp ht with rfl | ht
        · exact h t List.mem_cons_self
        · exact ih (n := 0) (fun u hu => h u (List.mem_cons_of_mem s hu)) t ht
      | succ n => exact ih (n := n) h

/-- Filling a bucket of holes moves elements and loses none. -/
theorem occupants_fillBucket (q : α → Bool) {bs : List α} (hbs : ∀ b ∈ bs, real b = false) (l : List α) :
    (occupants real (fillBucket real erase q bs l).1 ++ occupants real (fillBucket real erase q bs l).2).Perm
      (occupants real l) := by
  induction bs generalizing l with
  | nil => exact List.Perm.refl _
  | cons b bs ih =>
    have ih' := ih (fun c hc => hbs c (List.mem_cons_of_mem b hc)) (takeFirst real erase q l).2
    have ht := occupants_takeFirst herase q l
    simp only [fillBucket]
    cases hf : (takeFirst real erase q l).1 with
    | none =>
      rw [hf] at ht
      rw [Option.getD_none, occupants_cons_hole (hbs b List.mem_cons_self)]
      exact ih'.trans ht
    | some s =>
      rw [hf] at ht
      rw [Option.getD_some, occupants_cons_real (takeFirst_fst_some hf).2.1]
      exact (ih'.cons s).trans ht

theorem HolesFrom.fillBucket {n : Nat} {l : List α} (h : HolesFrom real n l) (q : α → Bool) (bs : List α) :
    HolesFrom real n (Slots.fillBucket real erase q bs l).2 := by
  induction bs generalizing l with
  | nil => exact h
  | cons b bs ih => exact ih (HolesFrom.takeFirst herase h q)

theorem occupants_rebuild (q : Nat → α → Bool) (i : Nat) {bs : List (List α)} (hbs : ∀ b ∈ bs.flatten, real b = false)
    (l : List α) :
    (occupants real (rebuild real erase q i bs l).1.flatten ++ occupants real (rebuild real erase q i bs l).2).Perm
      (occupants real l) := by
  induction bs generalizing i with
  | nil => exact List.Perm.refl _
  | cons b bs ih =>
    have ih' := ih (i + 1) fun c hc => hbs c (List.mem_append_right b hc)
    have hholes : ∀ c ∈ b, real c = false := fun c hc => hbs c (List.mem_append_left _ hc)
    have hb := occupants_fillBucket herase (q i) hholes (rebuild real erase q (i + 1) bs l).2
    simp only [rebuild, List.flatten_cons, occupants_append]
    refine List.Perm.trans ?_ ih'
    refine List.Perm.trans ?_ (hb.append_left _)
    rw [← List.append_assoc]
    exact List.perm_append_comm.append_right _

theorem HolesFrom.rebuild {n : Nat} {l : List α} (h : HolesFrom real n l) (q : Nat → α → Bool) (i : Nat)
    (bs : List (List α)) : HolesFrom real n (Slots.rebuild real erase q i bs l).2 := by
  induction bs generalizing i with
  | nil => exact h
  | cons b bs ih => exact HolesFrom.fillBucket herase (ih (i + 1)) (q i) b

end Holes

theorem mem_fillBucket {bs l : List α} {s : α} (h : s ∈ (fillBucket real erase q bs l).1) : s ∈ bs ∨ q s = true := by
  induction bs generalizing l with
  | nil => exact Or.inl h
  | cons b bs ih =>
    simp only [fillBucket, List.mem_cons] at h
    rcases h with rfl | h
    · cases hf : (takeFirst real erase q l).1 with
      | none => exact Or.inl List.mem_cons_self
      | some s => exact Or.inr (takeFirst_fst_some hf).2.2
    · exact (ih h).imp_left (List.mem_cons_of_mem b)

theorem mem_rebuild {q : Nat → α → Bool} {i j : Nat} {bs : List (List α)} {l b : List α} {s : α}
    (hb : (rebuild real erase q i bs l).1[j]? = some b) (hs : s ∈ b) : s ∈ bs.flatten ∨ q (i + j) s = true := by
  induction bs generalizing i j with
  | nil => simp [rebuild] at hb
  | cons c bs ih =>
    simp only [rebuild] at hb
    cases j with
    | zero =>
      rw [List.getElem?_cons_zero, Option.some.injEq] at hb
      subst hb
      exact (mem_fillBucket hs).imp_left (List.mem_append_left _)
    | succ j =>
      rw [List.getElem?_cons_succ] at hb
      rw [show i + (j + 1) = i + 1 + j by omega]
      exact (ih hb).imp_left (List.mem_append_right c)

end Take

end FOSketch.Slots
