import FOSketch.Keyed.Scan
import FOSketch.Oram.State

/-!
# The stash routines refine the slot operations

Each loop over the stash computes one operation of `Slots`: a path block enters at the first hole whatever the pace of
`length_st` (`writeLoop_spec`), the block that is read is relabelled in place (`readLoop_spec`), and every scan of
`ORebuildStash` takes the first block that may lie in the bucket (`fillPlaces_evictScan`).
-/

namespace FOSketch.Oram

open Slots

variable {n : Nat} {L : Layout}

/-! ## Paths -/

theorem deltas_eq {level : Nat} (leaf k i : Nat) (h : i + k = level) :
    deltas leaf k (node level leaf i) (1 <<< (k - 1)) =
      (List.range' (i + 1) k).map fun i => node level leaf i := by
  induction k generalizing i with
  | zero => rfl
  | succ k ih =>
    have hbit : (1 <<< k &&& leaf = 0) ↔ leaf / 2 ^ (level - (i + 1)) % 2 = 0 := by
      rw [show level - (i + 1) = k by omega, Nat.one_shiftLeft, Nat.and_comm, Nat.and_two_pow]
      rw [Nat.testBit_eq_decide_div_mod_eq]
      rcases Nat.mod_two_eq_zero_or_one (leaf / 2 ^ k) with h0 | h1
      · simp [h0]
      · simp [h1]
    have hstep : (if 1 <<< k &&& leaf = 0 then node level leaf i * 2 else node level leaf i * 2 + 1) =
        node level leaf (i + 1) := by
      rw [node_succ leaf (by omega : i < level)]
      split_ifs with hz
      · rw [hbit.mp hz]; omega
      · have := mt hbit.mpr hz
        omega
    have hmask : 1 <<< k >>> 1 = if k = 0 then 0 else 1 <<< (k - 1) := by
      rcases k with _ | k
      · rfl
      · rw [if_neg (by omega), Nat.one_shiftLeft, Nat.shiftRight_one, pow_succ, Nat.add_sub_cancel, Nat.one_shiftLeft]
        omega
    rw [deltas, Nat.add_sub_cancel]
    simp only [hstep]
    rw [List.range'_succ, List.map_cons]
    congr 1
    rcases Nat.eq_zero_or_pos k with rfl | hk
    · rfl
    · rw [hmask, if_neg (by omega)]
      exact ih (i + 1) (by omega)

/-- The loop of `readPath` and `pushPath` visits the buckets from the root to the leaf. -/
theorem pathBuckets_eq {level leaf : Nat} (h : leaf < 2 ^ level) : pathBuckets level leaf = pathTo level leaf := by
  have hd := deltas_eq leaf level 0 (Nat.zero_add level)
  rw [node_zero h] at hd
  rw [pathBuckets, hd, pathTo, List.range_eq_range', List.range'_succ, List.map_cons, node_zero h, List.map_map]
  rfl

/-! ## Writing -/

theorem writeScan_found (pace : Nat) (p : Block n) (j length_st : Nat) (slots : List (Block n)) :
    writeScan pace copyIf p j length_st true slots = (slots, length_st) := by
  induction slots generalizing j with
  | nil => rfl
  | cons s slots ih =>
    unfold writeScan
    by_cases hj : j < length_st
    · rw [if_pos hj]
      simp [ih, copyIf]
    · rw [if_neg hj]

theorem writeScan_dummy (pace : Nat) {p : Block n} (hp : p.real = false) (j length_st : Nat) (found : Bool)
    (slots : List (Block n)) : writeScan pace copyIf p j length_st found slots = (slots, length_st) := by
  induction slots generalizing j found with
  | nil => rfl
  | cons s slots ih =>
    unfold writeScan
    by_cases hj : j < length_st
    · rw [if_pos hj]
      simp [ih, copyIf, hp]
    · rw [if_neg hj]

/-- With a hole among the visible slots, the block goes to the first one. -/
theorem writeScan_hole (pace : Nat) {p : Block n} (hp : p.real = true) {j length_st : Nat} {slots : List (Block n)}
    (h : ∃ s ∈ slots.take (length_st - j), s.real = false) :
    writeScan pace copyIf p j length_st false slots = (insertFirst Block.real p slots, length_st) := by
  induction slots generalizing j with
  | nil => rfl
  | cons s slots ih =>
    have hj : j < length_st := by
      by_contra hj
      rw [Nat.sub_eq_zero_of_le (not_lt.mp hj)] at h
      simp at h
    unfold writeScan
    rw [if_pos hj]
    cases hs : s.real with
    | false =>
      rw [insertFirst_cons_hole hs]
      simp [hp, copyIf, writeScan_found]
    | true =>
      obtain ⟨t, ht, hr⟩ := h
      rw [show length_st - j = length_st - (j + 1) + 1 by omega, List.take_succ_cons] at ht
      have ht' : t ∈ slots.take (length_st - (j + 1)) := by
        rcases List.mem_cons.mp ht with rfl | ht
        · rw [hs] at hr
          exact absurd hr (by decide)
        · exact ht
      have hlast : (j == length_st - 1) = false := by
        rw [beq_eq_false_iff_ne]
        rintro rfl
        rw [show length_st - (length_st - 1 + 1) = 0 by omega] at ht'
        simp at ht'
      rw [insertFirst_cons_real hs]
      simp [hp, copyIf, hlast, ih ⟨t, ht', hr⟩]

/-- With the visible slots full, `length_st` grows and the scan goes on behind them. -/
theorem writeScan_grow (pace : Nat) {p : Block n} (hp : p.real = true) {j length_st : Nat} {slots : List (Block n)}
    (hj : j < length_st) (hlen : length_st - j ≤ slots.length) (hmax : length_st + pace ≤ MAX_STASH_NUM)
    (hfull : ∀ s ∈ slots.take (length_st - j), s.real = true) :
    writeScan pace copyIf p j length_st false slots =
      (slots.take (length_st - j) ++
        (writeScan pace copyIf p length_st (length_st + pace) false (slots.drop (length_st - j))).1,
        (writeScan pace copyIf p length_st (length_st + pace) false (slots.drop (length_st - j))).2) := by
  induction slots generalizing j with
  | nil => simp at hlen; omega
  | cons s slots ih =>
    have hsplit : length_st - j = length_st - (j + 1) + 1 := by omega
    rw [hsplit, List.length_cons] at hlen
    rw [hsplit, List.take_succ_cons] at hfull
    have hs : s.real = true := hfull s List.mem_cons_self
    rw [hsplit, List.take_succ_cons, List.drop_succ_cons, List.cons_append]
    conv_lhs => unfold writeScan
    rw [if_pos hj]
    by_cases hlast : j = length_st - 1
    · have hnext : j + 1 = length_st := by omega
      have hmax' : ¬ MAX_STASH_NUM < length_st + pace := not_lt.mpr hmax
      rw [hnext, Nat.sub_self, List.take_zero, List.drop_zero, List.nil_append]
      simp [hs, hp, copyIf, hlast, hmax']
    · have hne : (j == length_st - 1) = false := by rwa [beq_eq_false_iff_ne]
      simp [hs, hp, copyIf, hne, ih (j := j + 1) (by omega) (by omega) fun t ht => hfull t (List.mem_cons_of_mem s ht)]

/-- With no room for that the block is dropped, and `length_st` ends with the growth less `8`. -/
theorem writeScan_overflow {pace : Nat} {p : Block n} (hp : p.real = true) {j length_st : Nat} {slots : List (Block n)}
    (hj : j < length_st) (hlen : length_st - j ≤ slots.length) (hmax : MAX_STASH_NUM < length_st + pace)
    (hfull : ∀ s ∈ slots.take (length_st - j), s.real = true) :
    writeScan pace copyIf p j length_st false slots = (slots, length_st + pace - 8) := by
  induction slots generalizing j with
  | nil => simp at hlen; omega
  | cons s slots ih =>
    have hsplit : length_st - j = length_st - (j + 1) + 1 := by omega
    rw [hsplit, List.length_cons] at hlen
    rw [hsplit, List.take_succ_cons] at hfull
    have hs : s.real = true := hfull s List.mem_cons_self
    unfold writeScan
    rw [if_pos hj]
    by_cases hlast : j = length_st - 1
    · simp [hs, hp, copyIf, hlast, hmax]
    · have hne : (j == length_st - 1) = false := by rwa [beq_eq_false_iff_ne]
      simp [hs, hp, copyIf, hne, ih (j := j + 1) (by omega) (by omega) fun t ht => hfull t (List.mem_cons_of_mem s ht)]

/-- With the visible slots full and a hole behind them the block goes there. -/
theorem writeScan_full {pace : Nat} (hpace : 0 < pace) {p : Block n} (hp : p.real = true) {j length_st : Nat}
    {slots : List (Block n)} (hj : j < length_st) (hlen : length_st - j < slots.length)
    (hmax : length_st + pace ≤ MAX_STASH_NUM) (hfull : ∀ s ∈ slots.take (length_st - j), s.real = true)
    (hholes : HolesFrom Block.real (length_st - j) slots) :
    writeScan pace copyIf p j length_st false slots = (insertFirst Block.real p slots, length_st + pace) := by
  have hnext : writeScan pace copyIf p length_st (length_st + pace) false (slots.drop (length_st - j)) =
      (insertFirst Block.real p (slots.drop (length_st - j)), length_st + pace) := by
    apply writeScan_hole pace hp
    obtain ⟨t, rest, ht⟩ := List.exists_cons_of_length_pos (l := slots.drop (length_st - j)) (by
      rw [List.length_drop]
      omega)
    refine ⟨t, ?_, hholes t (by rw [ht]; exact List.mem_cons_self)⟩
    rw [ht, show length_st + pace - length_st = pace - 1 + 1 by omega, List.take_succ_cons]
    exact List.mem_cons_self
  rw [writeScan_grow pace hp hj hlen.le hmax hfull, hnext, ← insertFirst_append_of_full hfull, List.take_append_drop]

/-- What holds of the stash while a path is written. -/
structure StashShape (s : State L) : Prop where
  length : s.stash.length = MAX_STASH_NUM
  pos : DEFAULT_STASH_LENGTH ≤ s.length_st
  le : s.length_st ≤ MAX_STASH_NUM
  holes : HolesFrom Block.real s.length_st s.stash

theorem StashShape.occupants_take {s : State L} (h : StashShape s) :
    occupants Block.real (s.stash.take s.length_st) = occupants Block.real s.stash := h.holes.occupants_take

/-- One block of the path is written, if `length_st` can grow when the stash is full. -/
theorem writeScan_room {pace : Nat} (hpace : 0 < pace) {s : State L} (h : StashShape s) {p : Block L.bytes}
    (hp : p.real = true) (hroom : (occupants Block.real s.stash).length = s.length_st → s.length_st + pace ≤ MAX_STASH_NUM) :
    ∃ length_st', writeScan pace copyIf p 0 s.length_st false s.stash =
        (insertFirst Block.real p s.stash, length_st') ∧
      (length_st' = s.length_st ∨ length_st' = s.length_st + pace) ∧
      StashShape { s with stash := insertFirst Block.real p s.stash, length_st := length_st' } := by
  obtain ⟨hlen, hpos, hle, hholes⟩ := h
  by_cases hhole : ∃ t ∈ s.stash.take s.length_st, t.real = false
  · refine ⟨s.length_st, writeScan_hole pace hp (by rwa [Nat.sub_zero]), Or.inl rfl, ?_, hpos, hle, ?_⟩
    · simp only [length_insertFirst, hlen]
    · exact hholes.insertFirst hhole p
  · push Not at hhole
    have hfull : ∀ t ∈ s.stash.take s.length_st, t.real = true := fun t ht => by simpa using hhole t ht
    have hcount : (occupants Block.real s.stash).length = s.length_st := by
      rw [← hholes.occupants_take, occupants_of_full hfull, List.length_take, hlen, min_eq_left hle]
    have hgrow : s.length_st + pace ≤ MAX_STASH_NUM := hroom hcount
    have hpos' : 0 < s.length_st := lt_of_lt_of_le (by decide) hpos
    refine ⟨s.length_st + pace, ?_, Or.inr rfl, ?_, hpos.trans (Nat.le_add_right _ _), hgrow, ?_⟩
    · apply writeScan_full hpace hp hpos' _ hgrow
      · rwa [Nat.sub_zero]
      · rwa [Nat.sub_zero]
      · rw [Nat.sub_zero, hlen]
        omega
    · simp only [length_insertFirst, hlen]
    · exact (hholes.insertFirst_succ p).mono (Nat.add_le_add_left hpace _)

/-- The largest value `length_st` grows to. -/
def growthLimit (pace length_st : Nat) : Nat := MAX_STASH_NUM - (MAX_STASH_NUM - length_st) % pace

theorem le_growthLimit (pace : Nat) {length_st : Nat} (h : length_st ≤ MAX_STASH_NUM) :
    length_st ≤ growthLimit pace length_st := by
  have := Nat.mod_le (MAX_STASH_NUM - length_st) pace
  unfold growthLimit
  omega

/-- Below the limit there is room for a whole step. -/
theorem grow_of_lt_growthLimit {pace length_st : Nat} (h : length_st < growthLimit pace length_st) :
    length_st + pace ≤ MAX_STASH_NUM := by
  unfold growthLimit at h
  by_contra hlt
  rw [Nat.mod_eq_of_lt (by omega)] at h
  omega

theorem growthLimit_add {pace length_st : Nat} (h : length_st + pace ≤ MAX_STASH_NUM) :
    growthLimit pace (length_st + pace) = growthLimit pace length_st := by
  unfold growthLimit
  rw [Nat.mod_eq_sub_mod (show MAX_STASH_NUM - length_st ≥ pace by omega), Nat.sub_add_eq]

theorem lt_growthLimit_add {pace : Nat} (hpace : 0 < pace) (length_st : Nat) :
    MAX_STASH_NUM < growthLimit pace length_st + pace := by
  have := Nat.mod_lt (MAX_STASH_NUM - length_st) hpace
  unfold growthLimit
  omega

def writeBlock (pace : Nat) (s : State L) (p : Block L.bytes) : State L :=
  let r := writeScan pace copyIf p 0 s.length_st false s.stash
  { s with stash := r.1, length_st := r.2 }

/-- The blocks are written to the first holes as long as all of them fit below the limit. -/
theorem foldl_writeBlock {pace : Nat} (hpace : 0 < pace) {s : State L} (h : StashShape s) (ps : List (Block L.bytes))
    (hload : (occupants Block.real ps).length + (occupants Block.real s.stash).length ≤ growthLimit pace s.length_st) :
    ∃ length_st', ps.foldl (writeBlock pace) s =
        { s with stash := insertAll Block.real ps s.stash, length_st := length_st' } ∧
      growthLimit pace length_st' = growthLimit pace s.length_st ∧
      StashShape { s with stash := insertAll Block.real ps s.stash, length_st := length_st' } := by
  induction ps generalizing s with
  | nil => exact ⟨s.length_st, rfl, rfl, h⟩
  | cons p ps ih =>
    rw [List.foldl_cons, insertAll_cons]
    unfold writeBlock
    cases hp : p.real with
    | false =>
      rw [writeScan_dummy pace hp, if_neg Bool.false_ne_true]
      rw [occupants_cons_hole hp] at hload
      exact ih h hload
    | true =>
      rw [occupants_cons_real hp, List.length_cons] at hload
      have hgrow : (occupants Block.real s.stash).length = s.length_st → s.length_st + pace ≤ MAX_STASH_NUM := fun he =>
        grow_of_lt_growthLimit (by omega)
      obtain ⟨len, hscan, hlen, hshape⟩ := writeScan_room hpace h hp hgrow
      have hlimit : growthLimit pace len = growthLimit pace s.length_st := by
        rcases hlen with rfl | rfl
        · rfl
        · exact growthLimit_add hshape.le
      have hroom : (occupants Block.real s.stash).length < s.stash.length := by
        rw [h.length]
        have : growthLimit pace s.length_st ≤ MAX_STASH_NUM := Nat.sub_le _ _
        omega
      rw [hscan, if_pos rfl]
      obtain ⟨len', hfold, hlimit', hshape'⟩ := ih hshape (by
        dsimp only
        rw [(occupants_insertFirst hp (exists_hole hroom)).length_eq, List.length_cons, hlimit]
        omega)
      exact ⟨len', hfold, hlimit'.trans hlimit, hshape'⟩

/-- The path is written to the first holes, as long as the stash has room for all its blocks. -/
theorem writeLoop_spec {pace : Nat} (hpace : 0 < pace) {s : State L} (h : StashShape s)
    {Path : List (List (Block L.bytes))}
    (hload : (occupants Block.real Path.flatten).length + (occupants Block.real s.stash).length + pace ≤
      MAX_STASH_NUM + 1) :
    ∃ length_st', writeLoop pace copyIf s Path =
        { s with stash := insertAll Block.real Path.flatten s.stash, length_st := length_st' } ∧
      StashShape { s with stash := insertAll Block.real Path.flatten s.stash, length_st := length_st' } := by
  have hlimit := lt_growthLimit_add hpace s.length_st
  obtain ⟨len, hfold, -, hshape⟩ := foldl_writeBlock hpace h Path.flatten (by omega)
  exact ⟨len, hfold, hshape⟩

/-! ## Reading -/

def relabel (bid : Nat) (pos : Bid) (b : Block n) : Block n := if b.blockID.val = bid then { b with pos := pos } else b

@[simp] theorem relabel_blockID (bid : Nat) (pos : Bid) (b : Block n) : (relabel bid pos b).blockID = b.blockID := by
  unfold relabel
  split_ifs <;> rfl

@[simp] theorem relabel_data (bid : Nat) (pos : Bid) (b : Block n) : (relabel bid pos b).data = b.data := by
  unfold relabel
  split_ifs <;> rfl

@[simp] theorem relabel_real (bid : Nat) (pos : Bid) (b : Block n) : (relabel bid pos b).real = b.real := by
  unfold Block.real
  rw [relabel_blockID]

theorem relabel_of_ne {bid : Nat} (pos : Bid) {b : Block n} (h : b.blockID.val ≠ bid) : relabel bid pos b = b :=
  if_neg h

theorem map_relabel_of_ne {bid : Nat} (pos : Bid) {l : List (Block n)} (h : ∀ b ∈ l, b.blockID.val ≠ bid) :
    l.map (relabel bid pos) = l := by
  conv_rhs => rw [← List.map_id l]
  exact List.map_congr_left fun b hb => relabel_of_ne pos (h b hb)

theorem occupants_map_relabel (bid : Nat) (pos : Bid) (l : List (Block n)) :
    occupants Block.real (l.map (relabel bid pos)) = (occupants Block.real l).map (relabel bid pos) := by
  unfold occupants
  rw [List.filter_map]
  congr 2
  funext b
  exact relabel_real bid pos b

theorem readScan_found (bid : Nat) (pos : Bid) (blk : Block n) (slots : List (Block n)) :
    readScan copyIf bid pos true blk slots = (slots, blk, true) := by
  induction slots with
  | nil => rfl
  | cons s slots ih => simp [readScan, ih, copyIf]

theorem count_id_of_mem {l : List (Block n)} {c : Block n} (hc : c ∈ l) :
    0 < (l.map fun d => d.blockID.val).count c.blockID.val :=
  List.count_pos_iff.mpr (List.mem_map_of_mem hc)

theorem exists_of_count_id {l : List (Block n)} {bid : Nat} (h : 0 < (l.map fun d => d.blockID.val).count bid) :
    ∃ c ∈ l, c.blockID.val = bid := by
  obtain ⟨c, hc, he⟩ := List.mem_map.mp (List.count_pos_iff.mp h)
  exact ⟨c, hc, he⟩

theorem count_id_eq_zero {l : List (Block n)} {bid : Nat} (h : ∀ d ∈ l, d.blockID.val ≠ bid) :
    (l.map fun d => d.blockID.val).count bid = 0 := by
  rw [List.count_eq_zero]
  intro hm
  obtain ⟨d, hd, he⟩ := List.mem_map.mp hm
  exact h d hd he

theorem only_copy_cons {bid : Nat} {s c : Block n} {slots : List (Block n)} (hc : c ∈ s :: slots)
    (hid : c.blockID.val = bid) (hone : ((s :: slots).map fun b => b.blockID.val).count bid = 1) :
    (c = s ∧ ∀ b ∈ slots, b.blockID.val ≠ bid) ∨
      (s.blockID.val ≠ bid ∧ c ∈ slots ∧ (slots.map fun b => b.blockID.val).count bid = 1) := by
  rw [List.map_cons] at hone
  by_cases hs : s.blockID.val = bid
  · have hrest : ∀ b ∈ slots, b.blockID.val ≠ bid := by
      rw [hs, List.count_cons_self, Nat.succ_inj, List.count_eq_zero] at hone
      intro b hb he
      exact hone (List.mem_map.mpr ⟨b, hb, he⟩)
    rcases List.mem_cons.mp hc with rfl | hc
    · exact Or.inl ⟨rfl, hrest⟩
    · exact absurd hid (hrest c hc)
  · rw [List.count_cons_of_ne hs] at hone
    rcases List.mem_cons.mp hc with rfl | hc
    · exact absurd hid hs
    · exact Or.inr ⟨hs, hc, hone⟩

theorem readScan_spec {bid : Nat} (pos : Bid) (blk : Block n) {slots : List (Block n)} {c : Block n} (hc : c ∈ slots)
    (hid : c.blockID.val = bid) (hone : (slots.map fun b => b.blockID.val).count bid = 1) :
    readScan copyIf bid pos false blk slots = (slots.map (relabel bid pos), { c with pos := pos }, true) := by
  induction slots with
  | nil => simp at hc
  | cons s slots ih =>
    rcases only_copy_cons hc hid hone with ⟨rfl, hrest⟩ | ⟨hs, hc', hone'⟩
    · rw [List.map_cons, map_relabel_of_ne pos hrest]
      simp [readScan, hid, readScan_found, copyIf, relabel]
    · have hs' : (s.blockID.val == bid) = false := by rwa [beq_eq_false_iff_ne]
      rw [List.map_cons, relabel_of_ne pos hs]
      simp [readScan, hs', ih hc' hone', copyIf]

theorem readFirst_spec {bid : Nat} (pos : Bid) {slots : List (Block n)} {c : Block n} (hc : c ∈ slots)
    (hid : c.blockID.val = bid) (hone : (slots.map fun b => b.blockID.val).count bid = 1) :
    readFirst bid pos slots = (slots.map (relabel bid pos), some { c with pos := pos }) := by
  induction slots with
  | nil => simp at hc
  | cons s slots ih =>
    rcases only_copy_cons hc hid hone with ⟨rfl, hrest⟩ | ⟨hs, hc', hone'⟩
    · rw [List.map_cons, map_relabel_of_ne pos hrest]
      simp [readFirst, hid, relabel]
    · rw [List.map_cons, relabel_of_ne pos hs]
      simp [readFirst, hs, ih hc' hone']

/-! ## Refilling the path -/

theorem evictScan_found (q : Block n → Bool) (cond : Bool) (p : Block n) (slots : List (Block n)) :
    evictScan copyIf q cond true p slots = (slots, p) := by
  induction slots generalizing cond with
  | nil => rfl
  | cons s slots ih => simp [evictScan, ih, copyIf]

/-- One place of a bucket: it takes the first block that may lie there. `cond` is false as long as none was found. -/
theorem evictScan_eq (q : Block n → Bool) (p : Block n) (slots : List (Block n)) :
    evictScan copyIf q false false p slots =
      ((takeFirst Block.real Block.erase q slots).2, (takeFirst Block.real Block.erase q slots).1.getD p) := by
  induction slots with
  | nil => rfl
  | cons s slots ih =>
    unfold evictScan
    cases hs : s.real with
    | false =>
      rw [takeFirst_cons_neg (by rw [hs, Bool.false_and])]
      simp [ih, copyIf]
    | true =>
      cases hq : q s with
      | false =>
        rw [takeFirst_cons_neg (by rw [hs, hq, Bool.and_false])]
        simp [ih, copyIf]
      | true =>
        rw [takeFirst_cons_pos (by rw [hs, hq, Bool.and_true])]
        simp [copyIf, evictScan_found, Block.erase]

theorem evictScan_SF_found (q : Block n → Bool) (cond : Bool) (p : Block n) (slots : List (Block n)) :
    evictScan_SF q cond true p slots = (slots, p) := by
  induction slots generalizing cond with
  | nil => rfl
  | cons s slots ih => simp [evictScan_SF, ih]

theorem evictScan_SF_eq (q : Block n → Bool) (p : Block n) (slots : List (Block n)) :
    evictScan_SF q false false p slots =
      ((takeFirst Block.real Block.erase q slots).2, (takeFirst Block.real Block.erase q slots).1.getD p) := by
  induction slots with
  | nil => rfl
  | cons s slots ih =>
    unfold evictScan_SF
    cases hs : s.real with
    | false =>
      rw [takeFirst_cons_neg (by rw [hs, Bool.false_and])]
      simp [ih]
    | true =>
      cases hq : q s with
      | false =>
        rw [takeFirst_cons_neg (by rw [hs, hq, Bool.and_false])]
        simp [ih]
      | true =>
        rw [takeFirst_cons_pos (by rw [hs, hq, Bool.and_true])]
        simp [evictScan_SF_found]

theorem fillPlaces_eq {scan : Block n → List (Block n) → List (Block n) × Block n} {q : Block n → Bool}
    (hscan : ∀ p slots, scan p slots =
      ((takeFirst Block.real Block.erase q slots).2, (takeFirst Block.real Block.erase q slots).1.getD p))
    (bucket slots : List (Block n)) :
    fillPlaces scan bucket slots = fillBucket Block.real Block.erase q bucket slots := by
  induction bucket generalizing slots with
  | nil => rfl
  | cons p bucket ih => simp only [fillPlaces, fillBucket, hscan, ih]

theorem evictCursor_eq (q : Block n → Bool) (p : Block n) (k : Nat) (slots : List (Block n)) :
    (evictCursor q p k slots).1 = (takeFirst Block.real Block.erase q slots).2 ∧
      (evictCursor q p k slots).2.1 = (takeFirst Block.real Block.erase q slots).1.getD p ∧
      k ≤ (evictCursor q p k slots).2.2 ∧
      ∀ s ∈ (evictCursor q p k slots).1.take ((evictCursor q p k slots).2.2 - k), (s.real && q s) = false := by
  induction slots generalizing k with
  | nil => simp [evictCursor]
  | cons s slots ih =>
    unfold evictCursor
    cases hs : s.real && q s with
    | true =>
      rw [takeFirst_cons_pos hs]
      simp
    | false =>
      obtain ⟨h1, h2, h3, h4⟩ := ih (k + 1)
      rw [takeFirst_cons_neg hs]
      simp only [Bool.false_eq_true, if_false, h1, h2, true_and]
      refine ⟨by omega, ?_⟩
      intro t ht
      rw [show (evictCursor q p (k + 1) slots).2.2 - k = (evictCursor q p (k + 1) slots).2.2 - (k + 1) + 1 by omega,
        List.take_succ_cons] at ht
      rcases List.mem_cons.mp ht with rfl | ht
      · exact hs
      · exact h4 t (by rwa [h1])

/-- The cursor of `rebuildStash` never passes a block that may lie in the bucket. -/
theorem fillCursor_eq (q : Block n → Bool) (bucket : List (Block n)) {k : Nat} {slots : List (Block n)}
    (hk : ∀ s ∈ slots.take k, (s.real && q s) = false) :
    fillCursor q k bucket slots = fillBucket Block.real Block.erase q bucket slots := by
  induction bucket generalizing k slots with
  | nil => rfl
  | cons p bucket ih =>
    obtain ⟨h1, h2, h3, h4⟩ := evictCursor_eq q p k (slots.drop k)
    have htake : takeFirst Block.real Block.erase q slots =
        ((takeFirst Block.real Block.erase q (slots.drop k)).1,
          slots.take k ++ (takeFirst Block.real Block.erase q (slots.drop k)).2) := by
      conv_lhs => rw [← List.take_append_drop k slots]
      exact takeFirst_append_of_none hk _
    simp only [fillCursor, fillBucket, htake, h2]
    rw [ih (k := (evictCursor q p k (slots.drop k)).2.2), h1]
    intro s hs
    rw [List.take_append] at hs
    rcases List.mem_append.mp hs with hs | hs
    · exact hk s (List.mem_of_mem_take hs)
    · rw [List.length_take] at hs
      rcases le_total k slots.length with hle | hle
      · rw [min_eq_left hle] at hs
        exact h4 s hs
      · rw [List.drop_of_length_le hle] at hs
        simp [evictCursor] at hs

theorem fillLevels_eq {fill : Nat → List (Block n) → List (Block n) → List (Block n) × List (Block n)}
    {q : Nat → Block n → Bool} (hfill : ∀ i bucket slots, fill i bucket slots =
      fillBucket Block.real Block.erase (q i) bucket slots)
    (i : Nat) (Path : List (List (Block n))) (slots : List (Block n)) :
    fillLevels fill i Path slots = rebuild Block.real Block.erase q i Path slots := by
  induction Path generalizing i with
  | nil => rfl
  | cons bucket Path ih => simp only [fillLevels, rebuild, ih, hfill]

/-- The path with all its blocks made dummies. -/
def cleared (Path : List (List (Block n))) : List (List (Block n)) := Path.map fun bucket => bucket.map Block.erase

theorem cleared_holes (Path : List (List (Block n))) : ∀ b ∈ (cleared Path).flatten, b.real = false := by
  intro b hb
  simp only [cleared, List.mem_flatten, List.mem_map] at hb
  obtain ⟨_, ⟨bucket, _, rfl⟩, hb⟩ := hb
  obtain ⟨c, _, rfl⟩ := List.mem_map.mp hb
  exact c.real_erase

/-- A routine whose scans take the first eligible block rebuilds the path from the visible slots as `rebuild` does. -/
theorem rebuildLoop_eq (s : State L)
    {fill : Nat → List (Block L.bytes) → List (Block L.bytes) → List (Block L.bytes) × List (Block L.bytes)}
    {q : Nat → Block L.bytes → Bool} (hfill : ∀ i bucket slots, fill i bucket slots =
      fillBucket Block.real Block.erase (q i) bucket slots)
    (Path : List (List (Block L.bytes))) :
    rebuildLoop fill s Path =
      ({ s with stash := (rebuild Block.real Block.erase q 0 (cleared Path) (s.stash.take s.length_st)).2 ++
          s.stash.drop s.length_st },
        (rebuild Block.real Block.erase q 0 (cleared Path) (s.stash.take s.length_st)).1) := by
  unfold rebuildLoop
  dsimp only
  rw [← cleared, fillLevels_eq hfill]

/-- With dummies behind the visible slots the whole stash takes part. -/
theorem rebuildLoop_spec {s : State L} (hholes : HolesFrom Block.real s.length_st s.stash)
    {fill : Nat → List (Block L.bytes) → List (Block L.bytes) → List (Block L.bytes) × List (Block L.bytes)}
    {q : Nat → Block L.bytes → Bool} (hfill : ∀ i bucket slots, fill i bucket slots =
      fillBucket Block.real Block.erase (q i) bucket slots)
    (Path : List (List (Block L.bytes))) :
    rebuildLoop fill s Path = ({ s with stash := (rebuild Block.real Block.erase q 0 (cleared Path) s.stash).2 },
      (rebuild Block.real Block.erase q 0 (cleared Path) s.stash).1) := by
  have hsplit : rebuild Block.real Block.erase q 0 (cleared Path)
      (s.stash.take s.length_st ++ s.stash.drop s.length_st) = _ :=
    rebuild_append_holes q 0 (cleared Path) (s.stash.take s.length_st) hholes
  rw [List.take_append_drop] at hsplit
  rw [rebuildLoop_eq s hfill, hsplit]

theorem rebuildStash_spec {s : State L} (h : HolesFrom Block.real s.length_st s.stash)
    (Path : List (List (Block L.bytes))) (leaf : Nat) :
    rebuildStash s Path leaf =
      ({ s with stash := (rebuild Block.real Block.erase (onPath L.level s.pos_map leaf) 0 (cleared Path) s.stash).2 },
        (rebuild Block.real Block.erase (onPath L.level s.pos_map leaf) 0 (cleared Path) s.stash).1) :=
  rebuildLoop_spec h (fun i bucket slots => fillCursor_eq (onPath L.level s.pos_map leaf i) bucket (by simp)) Path

theorem rebuildStash_SF_spec {s : State L} (h : HolesFrom Block.real s.length_st s.stash)
    (Path : List (List (Block L.bytes))) (leaf : Nat) :
    rebuildLoop (fun i => fillPlaces (evictScan_SF (onPath L.level s.pos_map leaf i) false false)) s Path =
      ({ s with stash := (rebuild Block.real Block.erase (onPath L.level s.pos_map leaf) 0 (cleared Path) s.stash).2 },
        (rebuild Block.real Block.erase (onPath L.level s.pos_map leaf) 0 (cleared Path) s.stash).1) :=
  rebuildLoop_spec h (fun i bucket slots => fillPlaces_eq (evictScan_SF_eq (onPath L.level s.pos_map leaf i)) bucket slots)
    Path

/-- `ORebuildStash` up to the compression. -/
theorem ORebuildStash_spec {s : State L} (h : HolesFrom Block.real s.length_st s.stash)
    (Path : List (List (Block L.bytes))) (leaf : Nat) :
    ORebuildStash s Path leaf =
      (let t := { s with
          stash := (rebuild Block.real Block.erase (onPath L.level s.pos_map leaf) 0 (cleared Path) s.stash).2 }
        if L.needComStash then OCompressStash t else t,
        (rebuild Block.real Block.erase (onPath L.level s.pos_map leaf) 0 (cleared Path) s.stash).1) := by
  unfold ORebuildStash
  simp only [OMoveEx_eq_copyIf]
  rw [rebuildLoop_spec h (q := onPath L.level s.pos_map leaf) fun _ bucket slots =>
    fillPlaces_eq (evictScan_eq _) bucket slots]
  split_ifs <;> rfl

/-! ## Compression -/

theorem foldl_insPos (l : List (Block n)) (k : Nat) :
    l.foldl (fun insPos b => OMove (insPos + 1) insPos b.real) k = k + (occupants Block.real l).length := by
  induction l generalizing k with
  | nil => rfl
  | cons b l ih =>
    rw [List.foldl_cons, ih]
    cases hb : b.real with
    | false => rw [occupants_cons_hole hb, OMove_false]
    | true =>
      rw [occupants_cons_real hb, OMove_true, List.length_cons]
      omega

theorem OCompressStash_perm (s : State L) : (OCompressStash s).stash.Perm s.stash := BitonicSorter.sort_perm _ _ _

theorem greater_SP_compares : Network.Compares (@greater_SP n) Block.blockID := fun _ _ => rfl

/-- In the order of their ids the dummies come last. -/
theorem holesFrom_of_sorted {l : List (Block n)} (hl : l.Pairwise fun b c => b.blockID ≤ c.blockID) :
    HolesFrom Block.real (occupants Block.real l).length l := by
  have hcount : l.countP (fun b => decide (b.blockID ≠ ⊤)) = (occupants Block.real l).length := by
    rw [List.countP_eq_length_filter]
    congr 2
    funext b
    cases hb : b.real with
    | false => exact decide_eq_false (not_not.mpr (Block.real_eq_false_iff.mp hb))
    | true => exact decide_eq_true (Block.real_iff.mp hb)
  intro b hb
  exact Block.real_eq_false_iff.mpr (Keyed.eq_top_of_mem_drop hl hcount.le b hb)

/-- The bounds of the visible part of the stash. -/
structure Window (s : State L) : Prop where
  length : s.stash.length = MAX_STASH_NUM
  pos : DEFAULT_STASH_LENGTH ≤ s.length_st
  le : s.length_st ≤ MAX_STASH_NUM

theorem StashShape.window {s : State L} (h : StashShape s) : Window s := ⟨h.length, h.pos, h.le⟩

theorem Window.length_take {s : State L} (h : Window s) : (s.stash.take s.length_st).length = s.length_st := by
  rw [List.length_take, h.length, min_eq_left h.le]

/-- The visible slots are sorted by their ids and cut behind the real blocks; the other slots stay. -/
theorem OCompressStash_split {s : State L} (h : Window s) :
    ∃ sorted, (OCompressStash s).stash = sorted ++ s.stash.drop s.length_st ∧ sorted.Perm (s.stash.take s.length_st) ∧
      (sorted.Pairwise fun b c => b.blockID ≤ c.blockID) ∧
      (OCompressStash s).length_st = max DEFAULT_STASH_LENGTH (occupants Block.real sorted).length := by
  have hlen := h.length_take
  have hbound : (s.stash.take s.length_st).length ≤ 2 ^ 30 := by
    rw [hlen]
    exact h.le.trans (by decide)
  have hsort : (OCompressStash s).stash =
      BitonicSorter.sort greater_SP (s.stash.take s.length_st) (s.stash.take s.length_st).length ++
        s.stash.drop s.length_st := by
    rw [← BitonicSorter.sort_append greater_SP hbound, List.take_append_drop, hlen]
    rfl
  have hpair := BitonicSorter.sort_pairwise greater_SP_compares hbound
  have hperm : (BitonicSorter.sort greater_SP (s.stash.take s.length_st) (s.stash.take s.length_st).length).Perm
      (s.stash.take s.length_st) := BitonicSorter.sort_perm _ _ _
  generalize BitonicSorter.sort greater_SP (s.stash.take s.length_st) (s.stash.take s.length_st).length = sorted
    at hsort hpair hperm
  refine ⟨sorted, hsort, hperm, hpair, ?_⟩
  have hslen : sorted.length = s.length_st := by rw [hperm.length_eq, hlen]
  have hfold := foldl_insPos ((OCompressStash s).stash.take s.length_st) 0
  have htake : (OCompressStash s).stash.take s.length_st = sorted := by rw [hsort, List.take_left' hslen]
  rw [Nat.zero_add, htake, ← htake] at hfold
  change OMove DEFAULT_STASH_LENGTH (((OCompressStash s).stash.take s.length_st).foldl _ 0) (decide
    (((OCompressStash s).stash.take s.length_st).foldl _ 0 < DEFAULT_STASH_LENGTH)) = _
  rw [hfold, htake]
  by_cases hlt : (occupants Block.real sorted).length < DEFAULT_STASH_LENGTH
  · rw [decide_eq_true hlt, OMove_true, max_eq_left hlt.le]
  · rw [decide_eq_false hlt, OMove_false, max_eq_right (not_lt.mp hlt)]

theorem OCompressStash_window {s : State L} (h : Window s) : Window (OCompressStash s) := by
  obtain ⟨sorted, -, hperm, -, hcount⟩ := OCompressStash_split h
  have hslen : sorted.length = s.length_st := by rw [hperm.length_eq, h.length_take]
  refine ⟨?_, ?_, ?_⟩
  · rw [(OCompressStash_perm s).length_eq, h.length]
  · rw [hcount]
    exact le_max_left _ _
  · rw [hcount]
    exact max_le (by decide) ((length_occupants_le sorted).trans (hslen.le.trans h.le))

theorem OCompressStash_shape {s : State L} (h : StashShape s) : StashShape (OCompressStash s) := by
  obtain ⟨hlen, hpos, hle⟩ := OCompressStash_window h.window
  obtain ⟨sorted, hsort, -, hpair, hcount⟩ := OCompressStash_split h.window
  refine ⟨hlen, hpos, hle, ?_⟩
  intro b hb
  rw [hsort, List.drop_append] at hb
  rcases List.mem_append.mp hb with hb | hb
  · refine (holesFrom_of_sorted hpair).mono ?_ b hb
    rw [hcount]
    exact le_max_right _ _
  · exact h.holes b (List.mem_of_mem_drop hb)

/-- Whatever lies behind the visible slots, the shorter stash shows the real blocks they held. -/
theorem OCompressStash_visible {s : State L} (h : Window s) :
    (occupants Block.real ((OCompressStash s).stash.take (OCompressStash s).length_st)).Perm
      (occupants Block.real (s.stash.take s.length_st)) := by
  obtain ⟨sorted, hsort, hperm, hpair, hcount⟩ := OCompressStash_split h
  have hslen : sorted.length = s.length_st := by rw [hperm.length_eq, h.length_take]
  have hle : (OCompressStash s).length_st ≤ sorted.length := by
    rw [hcount, hslen]
    exact max_le h.pos ((length_occupants_le sorted).trans hslen.le)
  have hholes : HolesFrom Block.real (OCompressStash s).length_st sorted := by
    apply (holesFrom_of_sorted hpair).mono
    rw [hcount]
    exact le_max_right _ _
  rw [hsort, List.take_append_of_le_length hle, hholes.occupants_take]
  exact occupants_perm hperm

end FOSketch.Oram
