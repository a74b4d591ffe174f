import FOSketch.Slots.Basic

/-!
# What an observer of the scans sees

A sequence of scans, each of which removes the first eligible element. The observer sees the slots as they are when each
scan begins (`snapshots`). Two sequences that treat one element `x` differently look the same exactly if every scan that
does so finds an element in front of `x` (`snapshots_eq_of_allFound`, `allFound_of_snapshots`), which comes down to
counting (`allFound_levels`).
-/

namespace FOSketch.Slots

variable {α ι β : Type*} (real : α → Bool) (erase : α → α)

/-- The slots at the start of every scan; `qs` are the scans' predicates. -/
def snapshots : List (α → Bool) → List α → List (List α)
  | [], _ => []
  | q :: qs, l => l :: snapshots qs (takeFirst real erase q l).2

/-- The slots after all scans. -/
def takes : List (α → Bool) → List α → List α
  | [], l => l
  | q :: qs, l => takes qs (takeFirst real erase q l).2

/-- Every scan finds an element. -/
def AllFound : List (α → Bool) → List α → Prop
  | [], _ => True
  | q :: qs, l => (∃ s ∈ l, (real s && q s) = true) ∧ AllFound qs (takeFirst real erase q l).2

variable {real erase}

theorem snapshots_append (qs rs : List (α → Bool)) (l : List α) :
    snapshots real erase (qs ++ rs) l = snapshots real erase qs l ++ snapshots real erase rs (takes real erase qs l) := by
  induction qs generalizing l with
  | nil => rfl
  | cons q qs ih => rw [List.cons_append, snapshots, ih, snapshots, takes, List.cons_append]

theorem takes_append (qs rs : List (α → Bool)) (l : List α) :
    takes real erase (qs ++ rs) l = takes real erase rs (takes real erase qs l) := by
  induction qs generalizing l with
  | nil => rfl
  | cons q qs ih => rw [List.cons_append, takes, ih, takes]

@[simp] theorem length_snapshots (qs : List (α → Bool)) (l : List α) :
    (snapshots real erase qs l).length = qs.length := by
  induction qs generalizing l with
  | nil => rfl
  | cons q qs ih => rw [snapshots, List.length_cons, ih, List.length_cons]

theorem length_of_mem_snapshots {qs : List (α → Bool)} {l m : List α} (h : m ∈ snapshots real erase qs l) :
    m.length = l.length := by
  induction qs generalizing l with
  | nil => simp [snapshots] at h
  | cons q qs ih =>
    rcases List.mem_cons.mp h with rfl | h
    · rfl
    · rw [ih h, length_takeFirst]

theorem takes_mem_snapshots (qs : List (α → Bool)) (q : α → Bool) (rs : List (α → Bool)) (l : List α) :
    takes real erase qs l ∈ snapshots real erase (qs ++ q :: rs) l := by
  rw [snapshots_append, snapshots]
  exact List.mem_append_right _ List.mem_cons_self

theorem length_takes (qs : List (α → Bool)) (l : List α) : (takes real erase qs l).length = l.length := by
  induction qs generalizing l with
  | nil => rfl
  | cons q qs ih => rw [takes, ih, length_takeFirst]

/-- A scan that may take anything leaves a hole, which the next one sees. -/
theorem exists_hole_of_two_scans (herase : ∀ s, real (erase s) = false) {qs rs : List (α → Bool)} {q r : α → Bool}
    {l : List α} (hl : l ≠ []) (hq : ∀ s ∈ takes real erase qs l, real s = true → q s = true) :
    ∃ m ∈ snapshots real erase (qs ++ q :: r :: rs) l, ∃ s ∈ m, real s = false := by
  have hfirst : takes real erase qs l ∈ snapshots real erase (qs ++ q :: r :: rs) l := takes_mem_snapshots _ _ _ _
  have hnext : takes real erase (qs ++ [q]) l ∈ snapshots real erase (qs ++ q :: r :: rs) l := by
    have hmem : takes real erase (qs ++ [q]) l ∈ snapshots real erase ((qs ++ [q]) ++ r :: rs) l :=
      takes_mem_snapshots _ _ _ _
    rwa [List.append_assoc, List.singleton_append] at hmem
  rw [takes_append] at hnext
  have hlen : (takes real erase qs l).length = l.length := length_takes qs l
  cases hm : takes real erase qs l with
  | nil =>
    rw [hm] at hlen
    exact absurd (List.length_eq_zero_iff.mp hlen.symm) hl
  | cons s m =>
    rw [hm] at hfirst hnext hq
    cases hs : real s with
    | false => exact ⟨_, hfirst, s, List.mem_cons_self, hs⟩
    | true =>
      have htake : (real s && q s) = true := by rw [hs, hq s List.mem_cons_self hs]; rfl
      refine ⟨_, hnext, erase s, ?_, herase s⟩
      rw [takes, takes, takeFirst_cons_pos htake]
      exact List.mem_cons_self

theorem real_and_congr {q r : α → Bool} {l : List α} (h : ∀ s ∈ l, real s = true → q s = r s) :
    ∀ s ∈ l, (real s && q s) = (real s && r s) := by
  intro s hs
  cases hr : real s with
  | false => rfl
  | true => rw [h s hs hr]

theorem takeFirst_congr {q r : α → Bool} {l : List α} (h : ∀ s ∈ l, real s = true → q s = r s) :
    takeFirst real erase q l = takeFirst real erase r l := by
  induction l with
  | nil => rfl
  | cons s l ih =>
    have hs := real_and_congr h s List.mem_cons_self
    have hrest := ih fun t ht => h t (List.mem_cons_of_mem s ht)
    unfold takeFirst
    rw [hs, hrest]

/-- A map that respects `real`, `erase` and the predicate commutes with the scan. -/
theorem takeFirst_map {f : α → β} {real' : β → Bool} {erase' : β → β} {q : α → Bool} {q' : β → Bool} {l : List α}
    (hreal : ∀ s ∈ l, real' (f s) = real s) (herase : ∀ s ∈ l, f (erase s) = erase' (f s))
    (hq : ∀ s ∈ l, real s = true → q' (f s) = q s) :
    (takeFirst real' erase' q' (l.map f)).2 = (takeFirst real erase q l).2.map f := by
  induction l with
  | nil => rfl
  | cons s l ih =>
    have hs : (real' (f s) && q' (f s)) = (real s && q s) := by
      rw [hreal s List.mem_cons_self]
      cases hr : real s with
      | false => rfl
      | true => rw [hq s List.mem_cons_self hr]
    have hrest := ih (fun t ht => hreal t (List.mem_cons_of_mem s ht)) (fun t ht => herase t (List.mem_cons_of_mem s ht))
      fun t ht => hq t (List.mem_cons_of_mem s ht)
    rw [List.map_cons]
    cases h : real s && q s with
    | true =>
      rw [takeFirst_cons_pos h, takeFirst_cons_pos (hs.trans h), List.map_cons, herase s List.mem_cons_self]
    | false =>
      rw [takeFirst_cons_neg h, takeFirst_cons_neg (hs.trans h), List.map_cons, hrest]

/-- Such a map commutes with what the scans show. -/
theorem snapshots_map {f : α → β} {real' : β → Bool} {erase' : β → β} {q : ι → α → Bool} {q' : ι → β → Bool}
    {P : α → Prop} (hP : ∀ s, P (erase s)) (hreal : ∀ s, P s → real' (f s) = real s)
    (herase : ∀ s, P s → f (erase s) = erase' (f s)) (hq : ∀ i s, P s → real s = true → q' i (f s) = q i s)
    (is : List ι) {l : List α} (hl : ∀ s ∈ l, P s) :
    snapshots real' erase' (is.map q') (l.map f) = (snapshots real erase (is.map q) l).map (List.map f) := by
  induction is generalizing l with
  | nil => rfl
  | cons i is ih =>
    have hstep : (takeFirst real' erase' (q' i) (l.map f)).2 = (takeFirst real erase (q i) l).2.map f :=
      takeFirst_map (fun s hs => hreal s (hl s hs)) (fun s hs => herase s (hl s hs)) fun s hs => hq i s (hl s hs)
    rw [List.map_cons, List.map_cons, snapshots, snapshots, hstep, List.map_cons, ih]
    intro s hs
    rcases mem_takeFirst_snd hs with hs | ⟨t, -, rfl⟩
    · exact hl s hs
    · exact hP t

section Holes
variable (herase : ∀ s, real (erase s) = false)
include herase

theorem snapshots_congr {is : List ι} {q r : ι → α → Bool} {l : List α}
    (h : ∀ i ∈ is, ∀ s ∈ l, real s = true → q i s = r i s) :
    snapshots real erase (is.map q) l = snapshots real erase (is.map r) l := by
  induction is generalizing l with
  | nil => rfl
  | cons i is ih =>
    have hi : takeFirst real erase (q i) l = takeFirst real erase (r i) l := takeFirst_congr (h i List.mem_cons_self)
    rw [List.map_cons, List.map_cons, snapshots, snapshots, hi]
    congr 1
    apply ih
    intro j hj s hs hr
    exact h j (List.mem_cons_of_mem i hj) s (mem_takeFirst_of_real herase hs hr) hr

/-! ## Counting -/

/-- A scan removes one of the elements that satisfy a weaker predicate. -/
theorem countP_takeFirst {q r : α → Bool} {l : List α} (hqr : ∀ s, real s = true → q s = true → r s = true)
    (hfound : ∃ s ∈ l, (real s && q s) = true) :
    (takeFirst real erase q l).2.countP (fun s => real s && r s) + 1 = l.countP fun s => real s && r s := by
  induction l with
  | nil => simp at hfound
  | cons s l ih =>
    cases hs : real s && q s with
    | true =>
      rw [Bool.and_eq_true] at hs
      rw [takeFirst_cons_pos (by rw [hs.1, hs.2]; rfl)]
      simp only [List.countP_cons, hs.1, hqr s hs.1 hs.2, herase, Bool.true_and, Bool.false_and, Bool.false_eq_true,
        if_true, if_false]
    | false =>
      have hl : ∃ t ∈ l, (real t && q t) = true := by
        obtain ⟨t, ht, hr⟩ := hfound
        rcases List.mem_cons.mp ht with rfl | ht
        · rw [hs] at hr
          exact absurd hr (by decide)
        · exact ⟨t, ht, hr⟩
      have hrest := ih hl
      rw [takeFirst_cons_neg hs]
      rw [List.countP_cons, List.countP_cons]
      omega

/-- `m` scans with one predicate find an element each if there are `m` of them; every weaker predicate loses `m`. -/
theorem allFound_replicate (m : Nat) (q : α → Bool) (l : List α) :
    (AllFound real erase (List.replicate m q) l ↔ m ≤ l.countP fun s => real s && q s) ∧
      (AllFound real erase (List.replicate m q) l → ∀ r : α → Bool, (∀ s, real s = true → q s = true → r s = true) →
        (takes real erase (List.replicate m q) l).countP (fun s => real s && r s) + m =
          l.countP fun s => real s && r s) := by
  induction m generalizing l with
  | zero => exact ⟨by simp [AllFound], fun _ r _ => rfl⟩
  | succ m ih =>
    obtain ⟨ih1, ih2⟩ := ih (takeFirst real erase q l).2
    rw [List.replicate_succ]
    constructor
    · constructor
      · rintro ⟨hfound, hrest⟩
        have h1 := ih1.mp hrest
        have h2 := countP_takeFirst herase (fun s _ h => h) hfound (q := q) (r := q)
        omega
      · intro hm
        have hfound : ∃ s ∈ l, (real s && q s) = true := by
          apply List.countP_pos_iff.mp
          omega
        have h2 := countP_takeFirst herase (fun s _ h => h) hfound (q := q) (r := q)
        exact ⟨hfound, ih1.mpr (by omega)⟩
    · rintro ⟨hfound, hrest⟩ r hr
      have h1 := ih2 hrest r hr
      have h2 := countP_takeFirst herase hr hfound
      rw [takes]
      omega

end Holes

theorem allFound_append (qs rs : List (α → Bool)) (l : List α) :
    AllFound real erase (qs ++ rs) l ↔ AllFound real erase qs l ∧ AllFound real erase rs (takes real erase qs l) := by
  induction qs generalizing l with
  | nil => simp [AllFound, takes]
  | cons q qs ih => rw [List.cons_append, AllFound, ih, AllFound, takes, and_assoc]

/-- Levels of `m` scans each, every level with a weaker predicate than the ones before: each scan finds an element if and
only if each level finds enough of them at the start. -/
theorem allFound_levels (herase : ∀ s, real (erase s) = false) (m : Nat) (q : ι → α → Bool) {js : List ι}
    (hmono : js.Pairwise fun i j => ∀ s, real s = true → q i s = true → q j s = true) (l : List α) :
    AllFound real erase ((js.flatMap fun i => List.replicate m i).map q) l ↔
      ∀ a i b, js = a ++ i :: b → (a.length + 1) * m ≤ l.countP fun s => real s && q i s := by
  induction js generalizing l with
  | nil => simp [AllFound]
  | cons i js ih =>
    rw [List.pairwise_cons] at hmono
    obtain ⟨h1, h2⟩ := allFound_replicate herase m (q i) l
    rw [List.flatMap_cons, List.map_append, List.map_replicate, allFound_append, ih hmono.2]
    constructor
    · rintro ⟨hfirst, hrest⟩ a k b he
      cases a with
      | nil =>
        obtain ⟨rfl, -⟩ : i = k ∧ js = b := by simpa using he
        rw [List.length_nil, Nat.zero_add, Nat.one_mul]
        exact h1.mp hfirst
      | cons a' a =>
        obtain ⟨rfl, rfl⟩ : i = a' ∧ js = a ++ k :: b := by simpa using he
        have hk := hrest a k b rfl
        have hcount := h2 hfirst (q k) (hmono.1 k (by simp))
        rw [List.length_cons, Nat.add_mul, Nat.one_mul]
        omega
    · intro hall
      have hfirst := h1.mpr (by simpa using hall [] i js rfl)
      refine ⟨hfirst, ?_⟩
      rintro a k b rfl
      have hk := hall (i :: a) k b rfl
      have hcount := h2 hfirst (q k) (hmono.1 k (by simp))
      rw [List.length_cons, Nat.add_mul, Nat.one_mul] at hk
      omega

/-! ## Two sequences of scans -/

section TwoRuns
variable (herase : ∀ s, real (erase s) = false) {q r : ι → α → Bool} {bads goods : List ι}
include herase

/-- As long as the scans that may differ find an element in front, where they agree, the two sequences look the same. -/
theorem snapshots_eq_of_allFound {front rest : List α}
    (hfront : ∀ i ∈ bads, ∀ s ∈ front, real s = true → q i s = r i s)
    (hgood : ∀ i ∈ goods, ∀ s ∈ front ++ rest, real s = true → q i s = r i s)
    (hfound : AllFound real erase (bads.map q) front) :
    snapshots real erase ((bads ++ goods).map q) (front ++ rest) =
      snapshots real erase ((bads ++ goods).map r) (front ++ rest) := by
  induction bads generalizing front with
  | nil => exact snapshots_congr herase hgood
  | cons i bads ih =>
    obtain ⟨hf, hrest⟩ := hfound
    have hcongr : takeFirst real erase (q i) front = takeFirst real erase (r i) front :=
      takeFirst_congr (hfront i List.mem_cons_self)
    have hsame := real_and_congr (hfront i List.mem_cons_self)
    have hf' : ∃ s ∈ front, (real s && r i s) = true := by
      obtain ⟨s, hs, hq⟩ := hf
      exact ⟨s, hs, (hsame s hs).symm.trans hq⟩
    have hsub : ∀ s ∈ (takeFirst real erase (q i) front).2, real s = true → s ∈ front :=
      fun s hs hr => mem_takeFirst_of_real herase hs hr
    rw [List.cons_append, List.map_cons, List.map_cons, snapshots, snapshots, takeFirst_append_of_some hf,
      takeFirst_append_of_some hf', ← hcongr]
    congr 1
    refine ih (fun j hj s hs hr => hfront j (List.mem_cons_of_mem i hj) s (hsub s hs hr) hr) (fun j hj s hs hr => ?_) hrest
    refine hgood j hj s ?_ hr
    rcases List.mem_append.mp hs with hs | hs
    · exact List.mem_append_left _ (hsub s hs hr)
    · exact List.mem_append_right _ hs

omit herase in
/-- A scan that takes `x` and one that does not are told apart by what they leave. -/
theorem takeFirst_told {obs : α → β} {o : β} (hobs : ∀ s, obs (erase s) = o) {p p' : α → Bool} {front rest : List α} {x : α}
    (hx : real x = true) (hxo : obs x ≠ o) (hp : ∀ s ∈ front, (real s && p s) = false)
    (hp' : ∀ s ∈ front, (real s && p' s) = false) (hpx : p x = true) (hpx' : p' x = false) :
    (takeFirst real erase p (front ++ x :: rest)).2.map obs ≠ (takeFirst real erase p' (front ++ x :: rest)).2.map obs := by
  have htake : (real x && p x) = true := by rw [hx, hpx]; rfl
  have hleave : (real x && p' x) = false := by rw [hx, hpx']; rfl
  intro h
  rw [takeFirst_append_of_none hp, takeFirst_append_of_none hp', takeFirst_cons_pos htake, takeFirst_cons_neg hleave,
    List.map_append, List.map_append, List.append_cancel_left_eq, List.map_cons, List.map_cons, List.cons.injEq, hobs] at h
  exact hxo h.1.symm

/-- If the two sequences look the same, no scan that treats `x` differently got as far as `x`. `obs` is what is seen of a
slot; a hole can be told from `x`. -/
theorem allFound_of_snapshots (obs : α → β) (o : β) (hobs : ∀ s, obs (erase s) = o) {front rest : List α} {x : α}
    (hx : real x = true) (hxo : obs x ≠ o) (hfront : ∀ i ∈ bads, ∀ s ∈ front, real s = true → q i s = r i s)
    (hbad : ∀ i ∈ bads, q i x ≠ r i x) (hgoods : goods ≠ [])
    (heq : (snapshots real erase ((bads ++ goods).map q) (front ++ x :: rest)).map (List.map obs) =
      (snapshots real erase ((bads ++ goods).map r) (front ++ x :: rest)).map (List.map obs)) :
    AllFound real erase (bads.map q) front := by
  induction bads generalizing front with
  | nil => trivial
  | cons i bads ih =>
    have hsame := real_and_congr (hfront i List.mem_cons_self)
    rw [List.cons_append, List.map_cons, List.map_cons, snapshots, snapshots, List.map_cons, List.map_cons,
      List.cons.injEq] at heq
    by_cases hf : ∃ s ∈ front, (real s && q i s) = true
    · have hf' : ∃ s ∈ front, (real s && r i s) = true := by
        obtain ⟨s, hs, hq⟩ := hf
        exact ⟨s, hs, (hsame s hs).symm.trans hq⟩
      have hcongr : takeFirst real erase (q i) front = takeFirst real erase (r i) front :=
        takeFirst_congr (hfront i List.mem_cons_self)
      rw [takeFirst_append_of_some hf, takeFirst_append_of_some hf', ← hcongr] at heq
      exact ⟨hf, ih (fun j hj s hs hr => hfront j (List.mem_cons_of_mem i hj) s (mem_takeFirst_of_real herase hs hr) hr)
        (fun j hj => hbad j (List.mem_cons_of_mem i hj)) heq.2⟩
    · -- one of the two scans takes `x`, which the next scan sees
      exfalso
      have hq : ∀ s ∈ front, (real s && q i s) = false := by simpa using hf
      have hr : ∀ s ∈ front, (real s && r i s) = false := fun s hs => (hsame s hs).symm.trans (hq s hs)
      obtain ⟨j, js, hjs⟩ : ∃ j js, bads ++ goods = j :: js := List.exists_cons_of_ne_nil (by simp [hgoods])
      rw [hjs, List.map_cons, List.map_cons, snapshots, snapshots, List.map_cons, List.map_cons, List.cons.injEq] at heq
      have hne := hbad i List.mem_cons_self
      cases hqx : q i x with
      | true =>
        have hrx : r i x = false := by
          rw [hqx] at hne
          simpa using hne.symm
        exact takeFirst_told hobs hx hxo hq hr hqx hrx heq.2.1
      | false =>
        have hrx : r i x = true := by
          rw [hqx] at hne
          simpa using hne.symm
        exact takeFirst_told hobs hx hxo hr hq hrx hqx heq.2.1.symm

end TwoRuns

end FOSketch.Slots
