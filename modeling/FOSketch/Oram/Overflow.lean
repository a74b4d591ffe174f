import FOSketch.Oram.Written

/-!
# What an overflow of the stash hides

`OWriteToStash` grows `length_st` by `PACE_STASH` and takes `8` back when it cannot grow. From the first overflow on the
real blocks fill the first slots (`Packed`), so two numbers tell how it goes on (`overflowTurn`), and soon `length_st`
runs through a cycle (`overflowTurn_cycle`). Everything is kept up to `growthLimit` blocks; beyond, the blocks that
`length_st` has passed on its way down are hidden (`OWriteToStash_kept_iff`).
-/

namespace FOSketch.Oram

open Slots

variable {n : Nat} {L : Layout}

/-! ## Slots that keep their blocks -/

def Keeps (slots slots' : List (Block n)) : Prop :=
  ∀ (j : Nat) (b : Block n), slots[j]? = some b → b.real = true → slots'[j]? = some b

theorem Keeps.refl (slots : List (Block n)) : Keeps slots slots := fun _ _ h _ => h

theorem Keeps.trans {a b c : List (Block n)} (h : Keeps a b) (h' : Keeps b c) : Keeps a c :=
  fun j x hx hr => h' j x (h j x hx hr) hr

theorem keeps_insertFirst (p : Block n) (slots : List (Block n)) : Keeps slots (insertFirst Block.real p slots) := by
  intro j b hj hr
  induction slots generalizing j with
  | nil => simp at hj
  | cons s slots ih =>
    cases hs : s.real with
    | true =>
      rw [insertFirst_cons_real hs]
      cases j with
      | zero => exact hj
      | succ j => exact ih j hj
    | false =>
      rw [insertFirst_cons_hole hs]
      cases j with
      | zero =>
        obtain rfl : s = b := by simpa using hj
        rw [hs] at hr
        exact absurd hr Bool.false_ne_true
      | succ j => exact hj

theorem keeps_insertAll (ps slots : List (Block n)) : Keeps slots (insertAll Block.real ps slots) := by
  induction ps generalizing slots with
  | nil => exact Keeps.refl slots
  | cons p ps ih =>
    rw [insertAll_cons]
    split_ifs
    · exact (keeps_insertFirst p slots).trans (ih _)
    · exact ih _

/-! ## A packed stash -/

/-- The first `r` slots are real, the others dummies. -/
structure Packed (r : Nat) (slots : List (Block n)) : Prop where
  length : slots.length = MAX_STASH_NUM
  le : r ≤ MAX_STASH_NUM
  full : ∀ b ∈ slots.take r, b.real = true
  holes : HolesFrom Block.real r slots

theorem Packed.length_occupants {r : Nat} {slots : List (Block n)} (h : Packed r slots) :
    (occupants Block.real slots).length = r := by
  rw [← h.holes.occupants_take, occupants_of_full h.full, List.length_take, h.length, min_eq_left h.le]

theorem Packed.exists_hole {r i k : Nat} {slots : List (Block n)} (h : Packed r slots) (hi : i ≤ r) (hk : r < k)
    (hmax : k ≤ MAX_STASH_NUM) : ∃ t ∈ (slots.drop i).take (k - i), t.real = false := by
  have hlt : r < slots.length := by rw [h.length]; omega
  refine ⟨slots[r], ?_, h.holes _ (List.mem_drop_iff_getElem.mpr ⟨0, by omega, rfl⟩)⟩
  rw [← List.drop_take]
  exact List.mem_drop_iff_getElem.mpr ⟨r - i, by rw [List.length_take]; omega, by simp [Nat.add_sub_cancel' hi]⟩

theorem Packed.insertFirst {r : Nat} {slots : List (Block n)} (h : Packed r slots) (hr : r < MAX_STASH_NUM) {p : Block n}
    (hp : p.real = true) : Packed (r + 1) (insertFirst Block.real p slots) := by
  obtain ⟨t, rest, ht⟩ := List.exists_cons_of_length_pos (l := slots.drop r) (by rw [List.length_drop, h.length]; omega)
  have hhole : t.real = false := h.holes t (by rw [ht]; exact List.mem_cons_self)
  have hlen : (slots.take r).length = r := by rw [List.length_take, h.length, min_eq_left h.le]
  have hins : Slots.insertFirst Block.real p slots = slots.take r ++ p :: rest := by
    conv_lhs => rw [← List.take_append_drop r slots, ht]
    rw [insertFirst_append_of_full h.full, insertFirst_cons_hole hhole]
  refine ⟨by rw [length_insertFirst, h.length], hr, ?_, h.holes.insertFirst_succ p⟩
  intro b hb
  rw [hins, List.take_append, hlen, List.take_of_length_le (by omega), Nat.add_sub_cancel_left, List.take_succ_cons,
    List.take_zero] at hb
  rcases List.mem_append.mp hb with hb | hb
  · exact h.full b hb
  · rw [List.mem_singleton.mp hb]
    exact hp

theorem packed_of_full {s : State L} (h : StashShape s) (hfull : (occupants Block.real s.stash).length = s.length_st) :
    Packed s.length_st s.stash := by
  refine ⟨h.length, h.le, ?_, h.holes⟩
  rw [← h.occupants_take] at hfull
  by_contra hhole
  push Not at hhole
  obtain ⟨b, hb, hr⟩ := hhole
  have hlt : (occupants Block.real (s.stash.take s.length_st)).length < (s.stash.take s.length_st).length :=
    length_occupants_lt ⟨b, hb, by simpa using hr⟩
  rw [hfull, List.length_take] at hlt
  omega

/-- What a real block does to `length_st` and to the number of real slots. -/
def overflowTurn (t : Nat × Nat) : Nat × Nat :=
  if t.2 < t.1 then (t.1, t.2 + 1)
  else if MAX_STASH_NUM < t.1 + PACE_STASH then (t.1 + PACE_STASH - 8, t.2)
  else if t.2 < t.1 + PACE_STASH then (t.1 + PACE_STASH, t.2 + 1)
  else (t.1 + PACE_STASH + PACE_STASH - 8, t.2)

/-- The lengths since the first overflow. -/
def Shrunk (length_st : Nat) : Prop := 98 ≤ length_st ∧ length_st ≤ MAX_STASH_NUM

theorem Shrunk.overflowTurn {length_st : Nat} (h : Shrunk length_st) (r : Nat) : Shrunk (overflowTurn (length_st, r)).1 := by
  obtain ⟨h1, h2⟩ := h
  unfold Oram.overflowTurn Shrunk PACE_STASH MAX_STASH_NUM at *
  dsimp only
  split_ifs <;> dsimp only <;> omega

theorem writeScan_packed {r length_st : Nat} {slots : List (Block n)} (h : Packed r slots) (hlen : Shrunk length_st)
    {p : Block n} (hp : p.real = true) :
    ∃ slots', writeScan PACE_STASH copyIf p 0 length_st false slots = (slots', (overflowTurn (length_st, r)).1) ∧
      Packed (overflowTurn (length_st, r)).2 slots' ∧ Keeps slots slots' := by
  obtain ⟨h98, hmax⟩ := hlen
  have hfull : length_st ≤ r → ∀ b ∈ slots.take length_st, b.real = true := fun hle b hb =>
    h.full b ((List.take_sublist_take_left (by omega)).subset hb)
  have hgrow := fun hr hroom => writeScan_grow PACE_STASH hp (show 0 < length_st by omega)
    (show length_st - 0 ≤ slots.length by rw [h.length]; omega) hroom (hfull hr)
  unfold overflowTurn
  dsimp only
  split_ifs with h1 h2 h3
  · have hhole := h.exists_hole (Nat.zero_le r) h1 hmax
    exact ⟨_, writeScan_hole PACE_STASH hp hhole, h.insertFirst (by omega) hp, keeps_insertFirst p slots⟩
  · exact ⟨slots, writeScan_overflow hp (by omega) (by rw [h.length]; omega) h2 (hfull (by omega)), h, Keeps.refl slots⟩
  · -- the growth brings a hole into sight
    have hhole := h.exists_hole (not_lt.mp h1) h3 (not_lt.mp h2)
    refine ⟨_, ?_, h.insertFirst (by omega) hp, keeps_insertFirst p slots⟩
    have hins := insertFirst_append_of_full (hfull (by omega)) p (slots.drop length_st)
    rw [List.take_append_drop] at hins
    rw [hgrow (by omega) (by omega), Nat.sub_zero, writeScan_hole PACE_STASH hp hhole, hins]
  · -- the growth brings hidden blocks into sight, and there is no room for a second one
    refine ⟨slots, ?_, h, Keeps.refl slots⟩
    have hshown : ∀ b ∈ (slots.drop length_st).take (length_st + PACE_STASH - length_st), b.real = true := by
      intro b hb
      rw [← List.drop_take] at hb
      exact h.full b ((List.take_sublist_take_left (not_lt.mp h3)).subset (List.mem_of_mem_drop hb))
    have hpace : PACE_STASH = 5 := rfl
    have hnum : MAX_STASH_NUM = 105 := rfl
    rw [hgrow (by omega) (by omega), Nat.sub_zero,
      writeScan_overflow hp (by omega) (by rw [List.length_drop, h.length]; omega) (by omega) hshown,
      List.take_append_drop]

/-! ## The blocks behind the first overflow -/

theorem foldl_packed {s : State L} {r : Nat} (h : Packed r s.stash) (hlen : Shrunk s.length_st)
    (ps : List (Block L.bytes)) :
    ∃ slots', ps.foldl (writeBlock PACE_STASH) s =
        { s with
          stash := slots'
          length_st := (overflowTurn^[(occupants Block.real ps).length] (s.length_st, r)).1 } ∧
      Packed (overflowTurn^[(occupants Block.real ps).length] (s.length_st, r)).2 slots' ∧ Keeps s.stash slots' := by
  induction ps generalizing s r with
  | nil => exact ⟨s.stash, rfl, h, Keeps.refl _⟩
  | cons p ps ih =>
    rw [List.foldl_cons]
    unfold writeBlock
    cases hp : p.real with
    | false =>
      rw [writeScan_dummy PACE_STASH hp, occupants_cons_hole hp]
      exact ih h hlen
    | true =>
      obtain ⟨slots', hscan, hpacked, hkeeps⟩ := writeScan_packed h hlen hp
      rw [hscan, occupants_cons_real hp, List.length_cons, Function.iterate_succ_apply]
      obtain ⟨slots'', hfold, hpacked', hkeeps'⟩ :=
        ih (s := { s with stash := slots', length_st := (overflowTurn (s.length_st, r)).1 }) hpacked (hlen.overflowTurn r)
      exact ⟨slots'', hfold, hpacked', hkeeps.trans hkeeps'⟩

/-- Every overflow moves `length_st` to the next place of a cycle. -/
theorem overflowTurn_cycle {x : Nat} (hx : x < 5) (k : Nat) :
    overflowTurn^[k] (98 + x, 105) = (98 + (x + 2 * k) % 5, 105) := by
  induction k with
  | zero => rw [Function.iterate_zero_apply, Nat.mul_zero, Nat.add_zero, Nat.mod_eq_of_lt hx]
  | succ k ih =>
    rw [Function.iterate_succ_apply', ih, Nat.mul_succ, ← Nat.add_assoc, Nat.add_mod (x + 2 * k)]
    have hlt := Nat.mod_lt (x + 2 * k) (show 5 > 0 by decide)
    generalize (x + 2 * k) % 5 = y at hlt ⊢
    interval_cases y <;> rfl

/-- Where `length_st` ends with `total` real blocks, more than `MAX_STASH_NUM`, when it grows to `limit`: the way from the
first overflow to the cycle, and the cycle. -/
def shownLength (limit total : Nat) : Nat :=
  match limit, total with
  | 101, 106 | 101, 107 | 102, 109 | 103, 106 | 104, 108 => 105
  | 102, 106 => 101
  | 102, 108 | 104, 107 => 100
  | 102, 107 | 104, 106 => 98
  | _, _ => 98 + (limit + 2 * (total - MAX_STASH_NUM) + 2) % 5

theorem shownLength_of_le {limit total : Nat} (h : 110 ≤ total) :
    shownLength limit total = 98 + (limit + 2 * (total - MAX_STASH_NUM) + 2) % 5 := by
  unfold shownLength
  split <;> first | rfl | omega

theorem iterate_overflowTurn {limit total : Nat} (hmin : 101 ≤ limit) (hmax : limit ≤ 105) (h : 105 < total) :
    (overflowTurn^[total - limit] (limit, limit)).1 = shownLength limit total := by
  -- with 110 blocks every limit has come to the cycle
  have hcycle : overflowTurn^[110 - limit] (limit, limit) = (98 + (limit + 12) % 5, 105) := by
    interval_cases limit <;> rfl
  rcases Nat.lt_or_ge total 110 with hlt | hge
  · interval_cases limit <;> interval_cases total <;> rfl
  · have hsplit : total - limit = total - 110 + (110 - limit) := by omega
    rw [hsplit, Function.iterate_add_apply, hcycle, overflowTurn_cycle (Nat.mod_lt _ (by decide)), shownLength_of_le hge]
    unfold MAX_STASH_NUM
    dsimp only
    omega

/-- The first overflow drops a block. -/
theorem iterate_overflowTurn_lt {limit : Nat} (hmin : 101 ≤ limit) (k : Nat) :
    (overflowTurn^[k + 1] (limit, limit)).2 < limit + (k + 1) := by
  have hstep : ∀ t : Nat × Nat, (overflowTurn t).2 ≤ t.2 + 1 := by
    intro t
    unfold overflowTurn
    split_ifs <;> dsimp only <;> omega
  induction k with
  | zero =>
    have hfirst : overflowTurn (limit, limit) = (limit + PACE_STASH - 8, limit) := by
      unfold overflowTurn
      have hfull : MAX_STASH_NUM < limit + PACE_STASH := by
        unfold MAX_STASH_NUM PACE_STASH
        omega
      rw [if_neg (lt_irrefl limit), if_pos hfull]
    rw [Function.iterate_succ_apply, Function.iterate_zero_apply, hfirst]
    exact Nat.lt_succ_self limit
  | succ k ih =>
    have := hstep (overflowTurn^[k + 1] (limit, limit))
    rw [Function.iterate_succ_apply']
    omega

theorem exists_split_occupants (ps : List (Block n)) {c : Nat} (hc : c ≤ (occupants Block.real ps).length) :
    ∃ qs rs, ps = qs ++ rs ∧ (occupants Block.real qs).length = c := by
  induction ps generalizing c with
  | nil => exact ⟨[], [], rfl, (Nat.le_zero.mp hc).symm⟩
  | cons p ps ih =>
    rcases c with _ | c
    · exact ⟨[], p :: ps, rfl, rfl⟩
    · cases hp : p.real with
      | true =>
        rw [occupants_cons_real hp, List.length_cons] at hc
        obtain ⟨qs, rs, rfl, hlen⟩ := ih (Nat.le_of_succ_le_succ hc)
        exact ⟨p :: qs, rs, rfl, by rw [occupants_cons_real hp, List.length_cons, hlen]⟩
      | false =>
        rw [occupants_cons_hole hp] at hc
        obtain ⟨qs, rs, rfl, hlen⟩ := ih hc
        exact ⟨p :: qs, rs, rfl, by rw [occupants_cons_hole hp, hlen]⟩

/-! ## What `OWriteToStash` keeps -/

def realBlocks (s : State L) (Path : List (List (Block L.bytes))) : Nat :=
  (occupants Block.real s.visible).length + (occupants Block.real Path.flatten).length

/-- From `s` to `t` the real blocks in sight stay in sight, in their slots, and, if they and the blocks of the path are no
more than the slots, those are in sight, too. -/
structure Kept (s : State L) (Path : List (List (Block L.bytes))) (t : State L) : Prop where
  old : ∀ (j : Nat) (b : Block L.bytes), j < s.length_st → s.stash[j]? = some b → b.real = true →
    j < t.length_st ∧ t.stash[j]? = some b
  new : realBlocks s Path ≤ MAX_STASH_NUM →
    (occupants Block.real s.visible ++ occupants Block.real Path.flatten).Subperm (occupants Block.real t.visible)

section Write
variable {s : State L} (h : StashShape s) (Path : List (List (Block L.bytes)))
include h

theorem realBlocks_eq :
    realBlocks s Path = (occupants Block.real s.stash).length + (occupants Block.real Path.flatten).length := by
  unfold realBlocks State.visible
  rw [h.occupants_take]

/-- Up to the limit nothing is lost. -/
theorem kept_of_le (hle : realBlocks s Path ≤ growthLimit PACE_STASH s.length_st) : Kept s Path (OWriteToStash s Path) := by
  rw [realBlocks_eq h] at hle
  obtain ⟨len, hfold, -, hshape⟩ := foldl_writeBlock (show 0 < PACE_STASH by decide) h Path.flatten (by omega)
  have hwrite : OWriteToStash s Path = _ := (OWriteToStash_eq s Path).trans hfold
  have hmax : growthLimit PACE_STASH s.length_st ≤ MAX_STASH_NUM := Nat.sub_le _ _
  rw [hwrite]
  constructor
  · intro j b hj hb hr
    have hb' := keeps_insertAll Path.flatten s.stash j b hb hr
    refine ⟨?_, hb'⟩
    by_contra hge
    have hdrop : b ∈ (insertAll Block.real Path.flatten s.stash).drop len := by
      rw [List.mem_iff_getElem?]
      exact ⟨j - len, by rw [List.getElem?_drop, Nat.add_sub_cancel' (not_lt.mp hge)]; exact hb'⟩
    rw [hshape.holes b hdrop] at hr
    exact absurd hr Bool.false_ne_true
  · intro _
    have hfits : (occupants Block.real Path.flatten).length + (occupants Block.real s.stash).length ≤ s.stash.length := by
      rw [h.length]
      omega
    have hperm := occupants_insertAll hfits
    have hvisible := hshape.occupants_take
    unfold State.visible
    rw [h.occupants_take]
    dsimp only at hvisible ⊢
    rw [hvisible]
    exact (List.perm_append_comm.trans hperm.symm).subperm

/-- Beyond it the stash overflows. -/
theorem OWriteToStash_overflow (hlt : growthLimit PACE_STASH s.length_st < realBlocks s Path) :
    ∃ limit k slots', growthLimit PACE_STASH s.length_st = limit ∧ realBlocks s Path = limit + (k + 1) ∧ 101 ≤ limit ∧
      limit ≤ 105 ∧ OWriteToStash s Path =
        { s with stash := slots', length_st := (overflowTurn^[k + 1] (limit, limit)).1 } ∧
      Packed (overflowTurn^[k + 1] (limit, limit)).2 slots' ∧ Keeps s.stash slots' := by
  have hmin := lt_growthLimit_add (show 0 < PACE_STASH by decide) s.length_st
  have hmax : growthLimit PACE_STASH s.length_st ≤ MAX_STASH_NUM := Nat.sub_le _ _
  have hsmall : (occupants Block.real s.stash).length ≤ growthLimit PACE_STASH s.length_st := by
    have hvisible : (occupants Block.real (s.stash.take s.length_st)).length ≤ _ := length_occupants_le _
    rw [h.occupants_take, List.length_take] at hvisible
    have := le_growthLimit PACE_STASH h.le
    omega
  rw [realBlocks_eq h] at hlt ⊢
  obtain ⟨qs, rs, hsplit, hqs⟩ := exists_split_occupants Path.flatten
    (c := growthLimit PACE_STASH s.length_st - (occupants Block.real s.stash).length) (by omega)
  have hrs : (occupants Block.real Path.flatten).length =
      (occupants Block.real qs).length + (occupants Block.real rs).length := by
    rw [hsplit, occupants_append, List.length_append]
  obtain ⟨len, hfold, hlimit, hshape⟩ := foldl_writeBlock (show 0 < PACE_STASH by decide) h qs (by omega)
  have hfits : (occupants Block.real qs).length + (occupants Block.real s.stash).length ≤ s.stash.length := by
    rw [h.length]
    omega
  have hperm := occupants_insertAll hfits
  have hcount : (occupants Block.real (insertAll Block.real qs s.stash)).length = growthLimit PACE_STASH s.length_st := by
    rw [hperm.length_eq, List.length_append]
    omega
  have hlen : len = growthLimit PACE_STASH s.length_st := by
    have hvisible : (occupants Block.real ((insertAll Block.real qs s.stash).take len)).length ≤ _ := length_occupants_le _
    have htake := hshape.occupants_take
    dsimp only at htake
    rw [htake, hcount, List.length_take] at hvisible
    have hle : len ≤ growthLimit PACE_STASH len := le_growthLimit PACE_STASH hshape.le
    rw [hlimit] at hle
    omega
  have hpacked := packed_of_full hshape (hcount.trans hlen.symm)
  obtain ⟨slots', hfold', hpacked', hkeeps⟩ := foldl_packed hpacked
    ⟨by unfold PACE_STASH MAX_STASH_NUM at *; dsimp only; omega, hshape.le⟩ rs
  obtain ⟨k, hk⟩ : ∃ k, (occupants Block.real rs).length = k + 1 := ⟨(occupants Block.real rs).length - 1, by omega⟩
  refine ⟨_, k, slots', rfl, by omega, by unfold PACE_STASH MAX_STASH_NUM at *; omega, hmax, ?_, ?_, ?_⟩
  · rw [OWriteToStash_eq]
    unfold writeLoop
    rw [hsplit, List.foldl_append]
    refine (congrArg (List.foldl _ · rs) hfold).trans (hfold'.trans ?_)
    rw [hk]
    dsimp only
    rw [hlen]
  · rw [hk] at hpacked'
    dsimp only at hpacked'
    rwa [hlen] at hpacked'
  · exact (keeps_insertAll qs s.stash).trans hkeeps

/-- With more blocks than slots the blocks in sight are kept if there are none behind `shownLength`. -/
theorem kept_of_holes (hmax : MAX_STASH_NUM < realBlocks s Path)
    (hholes : HolesFrom Block.real (shownLength (growthLimit PACE_STASH s.length_st) (realBlocks s Path)) s.stash) :
    Kept s Path (OWriteToStash s Path) := by
  have hle : growthLimit PACE_STASH s.length_st ≤ MAX_STASH_NUM := Nat.sub_le _ _
  obtain ⟨limit, k, slots', hlimit, htotal, h101, h105, hwrite, -, hkeeps⟩ := OWriteToStash_overflow h Path (by omega)
  have hshown := iterate_overflowTurn h101 h105 hmax
  rw [hlimit, ← hshown, htotal, Nat.add_sub_cancel_left] at hholes
  rw [hwrite]
  refine ⟨fun j b _ hb hr => ⟨?_, hkeeps j b hb hr⟩, fun hfew => absurd hfew (not_le.mpr hmax)⟩
  by_contra hge
  have hdrop : b ∈ s.stash.drop (overflowTurn^[k + 1] (limit, limit)).1 :=
    List.mem_iff_getElem?.mpr ⟨j - _, by rw [List.getElem?_drop, Nat.add_sub_cancel' (not_lt.mp hge)]; exact hb⟩
  rw [hholes b hdrop] at hr
  exact absurd hr Bool.false_ne_true

theorem holes_of_kept (hlt : growthLimit PACE_STASH s.length_st < realBlocks s Path)
    (hkept : Kept s Path (OWriteToStash s Path)) : MAX_STASH_NUM < realBlocks s Path ∧
      HolesFrom Block.real (shownLength (growthLimit PACE_STASH s.length_st) (realBlocks s Path)) s.stash := by
  obtain ⟨limit, k, slots', hlimit, htotal, h101, h105, hwrite, hpacked, -⟩ := OWriteToStash_overflow h Path hlt
  obtain ⟨hold, hnew⟩ := hkept
  rw [hwrite] at hold hnew
  have hmax : MAX_STASH_NUM < realBlocks s Path := by
    by_contra hle
    have hlen := (hnew (not_lt.mp hle)).length_le
    have hvisible := ((List.take_sublist (overflowTurn^[k + 1] (limit, limit)).1 slots').filter Block.real).length_le
    have hdropped := iterate_overflowTurn_lt h101 k
    have hcount := hpacked.length_occupants
    rw [List.length_append] at hlen
    change _ ≤ (occupants Block.real (slots'.take (overflowTurn^[k + 1] (limit, limit)).1)).length at hlen
    unfold occupants at hcount hlen
    unfold realBlocks occupants at htotal
    omega
  refine ⟨hmax, fun b hb => ?_⟩
  rw [hlimit, ← iterate_overflowTurn h101 h105 hmax, htotal, Nat.add_sub_cancel_left] at hb
  obtain ⟨i, hi⟩ := List.mem_iff_getElem?.mp hb
  rw [List.getElem?_drop] at hi
  by_contra hr
  rw [Bool.not_eq_false] at hr
  have hlen : (overflowTurn^[k + 1] (limit, limit)).1 + i < s.length_st := by
    by_contra hge
    have hdummy := h.holes b (List.mem_iff_getElem?.mpr ⟨_ - s.length_st, by
      rw [List.getElem?_drop, Nat.add_sub_cancel' (not_lt.mp hge)]; exact hi⟩)
    rw [hdummy] at hr
    exact Bool.false_ne_true hr
  exact absurd (hold _ b hlen hi hr).1 (by dsimp only; omega)

/-- **`OWriteToStash`** keeps what is in sight, and the blocks of the path, if and only if all blocks fit below the limit,
or there are more than slots and none lies behind the length the overflows end with. -/
theorem OWriteToStash_kept_iff : Kept s Path (OWriteToStash s Path) ↔
    realBlocks s Path ≤ growthLimit PACE_STASH s.length_st ∨ (MAX_STASH_NUM < realBlocks s Path ∧
      HolesFrom Block.real (shownLength (growthLimit PACE_STASH s.length_st) (realBlocks s Path)) s.stash) := by
  constructor
  · intro hkept
    rcases Nat.lt_or_ge (growthLimit PACE_STASH s.length_st) (realBlocks s Path) with hlt | hle
    · exact Or.inr (holes_of_kept h Path hlt hkept)
    · exact Or.inl hle
  · rintro (hle | ⟨hmax, hholes⟩)
    · exact kept_of_le h Path hle
    · exact kept_of_holes h Path hmax hholes

end Write

/-! ## A full stash -/

def wide : Layout where
  sketchType := .C
  sizeBlock := 16
  sizeBucket := 5
  nBlock := 128
  level := 7
  needComStash := false
  sizeBlock_eq := sizeBlock_16
  level_lt := by decide

def fullStash : State wide where
  stash := (List.range MAX_STASH_NUM).map fun i => ⟨toBid i, 0, fun _ => 0⟩
  length_st := MAX_STASH_NUM
  OblivSK := List.replicate wide.nBucket (List.replicate wide.sizeBucket ⟨DUMMY_FLAG, 0, fun _ => 0⟩)
  pos_map := fun _ => 0

theorem fullStash_shape : StashShape fullStash := by
  refine ⟨by simp [fullStash], by decide, le_rfl, ?_⟩
  intro b hb
  rw [List.drop_of_length_le (by simp [fullStash])] at hb
  exact absurd hb (by simp)

def onePath : List (List (Block wide.bytes)) :=
  (⟨105, 0, fun _ => 0⟩ :: List.replicate 4 ⟨DUMMY_FLAG, 0, fun _ => 0⟩) ::
    List.replicate 7 (List.replicate 5 ⟨DUMMY_FLAG, 0, fun _ => 0⟩)

theorem realBlocks_onePath : realBlocks fullStash onePath = 106 := by
  have hvisible : fullStash.visible = fullStash.stash := List.take_of_length_le (by simp [fullStash])
  have hstash : occupants Block.real fullStash.stash = fullStash.stash := by
    apply occupants_of_full
    intro b hb
    obtain ⟨i, hi, rfl⟩ := List.mem_map.mp hb
    have hlt : i < 105 := List.mem_range.mp hi
    apply Block.real_iff.mpr
    intro he
    have hid := congrArg Fin.val he
    have hval : DUMMY_FLAG.val = 65535 := rfl
    rw [toBid_val] at hid
    omega
  have hpath : (occupants Block.real onePath.flatten).length = 1 := by decide
  unfold realBlocks
  rw [hvisible, hstash, hpath]
  simp [fullStash, MAX_STASH_NUM]

/-- One more block hides three. -/
theorem OWriteToStash_hides : StashShape fullStash ∧ ¬ Kept fullStash onePath (OWriteToStash fullStash onePath) := by
  refine ⟨fullStash_shape, fun hkept => ?_⟩
  have hlimit : growthLimit PACE_STASH fullStash.length_st = 105 := rfl
  have hholes := (holes_of_kept fullStash_shape onePath (by rw [hlimit, realBlocks_onePath]; decide) hkept).2
  rw [hlimit, realBlocks_onePath] at hholes
  have hreal := hholes ⟨toBid 104, 0, fun _ => 0⟩ (List.mem_iff_getElem?.mpr ⟨2, by
    rw [List.getElem?_drop]
    rfl⟩)
  exact absurd hreal (by decide)

/-- A stash with room keeps the block of the path. -/
theorem OWriteToStash_kept_iff_room :
    let s : State wide := sketchOf wide fullStash.OblivSK [] 5 fun _ => 0
    Kept s onePath (OWriteToStash s onePath) := by
  intro s
  have hshape : StashShape s := by
    refine ⟨by simp [s, sketchOf], le_rfl, (by decide : 5 ≤ MAX_STASH_NUM), fun b hb => ?_⟩
    rw [List.eq_of_mem_replicate (List.mem_of_mem_drop hb)]
    rfl
  refine (OWriteToStash_kept_iff hshape onePath).mpr (Or.inl ?_)
  decide

end FOSketch.Oram
