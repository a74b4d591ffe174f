import FOSketch.Oram.Lockstep

/-!
# The non-oblivious access

`writeToStash` goes through the stash once, with a cursor that never returns. It extends the stash only when the cursor
meets a real block in the last visible slot; once it has filled that slot itself it drops what is left of the path. So
the stash takes exactly `State.room` blocks (`writeToStash_spec`), and `access` agrees with `OAccess` if and only if
nothing was dropped that matters (`access_eq_OAccess_iff`).
-/

namespace FOSketch.Oram

open Slots

variable {n : Nat} {L : Layout}

/-! ## The cursor -/

/-- How many blocks the cursor places in the visible slots `b` ahead of it and behind them: one for each dummy, and
eight if the last slot is real. -/
def roomAhead (b : List (Block n)) : Nat :=
  b.countP (fun s => !s.real) + if b.getLast?.any Block.real then 8 else 0

/-- How many blocks of a path `writeToStash` finds room for. -/
def State.room (s : State L) : Nat := roomAhead (s.stash.take s.length_st)

theorem roomAhead_hole {b₁ b₂ : List (Block n)} {s : Block n} (hfull : ∀ t ∈ b₁, t.real = true) (hs : s.real = false) :
    roomAhead (b₁ ++ s :: b₂) = roomAhead b₂ + 1 := by
  have hzero : b₁.countP (fun s => !s.real) = 0 := by
    rw [List.countP_eq_zero]
    intro t ht
    simp [hfull t ht]
  have hlast : ((b₁ ++ s :: b₂).getLast?).any Block.real = b₂.getLast?.any Block.real := by
    rw [List.getLast?_append, List.getLast?_cons]
    cases b₂ with
    | nil => simp [hs]
    | cons t b₂ => simp [List.getLast?_cons]
  unfold roomAhead
  rw [hlast, List.countP_append, List.countP_cons, hzero, hs]
  simp only [Bool.not_false, if_true]
  omega

theorem roomAhead_full {b : List (Block n)} (hfull : ∀ t ∈ b, t.real = true) (hb : b ≠ []) : roomAhead b = 8 := by
  have hzero : b.countP (fun s => !s.real) = 0 := by
    rw [List.countP_eq_zero]
    intro t ht
    simp [hfull t ht]
  unfold roomAhead
  rw [hzero, List.getLast?_eq_some_getLast hb, Option.any_some, hfull _ (List.getLast_mem hb)]
  rfl

theorem roomAhead_holes {b : List (Block n)} (hholes : ∀ t ∈ b, t.real = false) : roomAhead b = b.length := by
  have hcount : b.countP (fun s => !s.real) = b.length := by
    rw [List.countP_eq_length]
    intro t ht
    simp [hholes t ht]
  unfold roomAhead
  rw [hcount]
  cases hl : b.getLast? with
  | none => rfl
  | some t => simp [hholes t (List.mem_of_getLast? hl)]

theorem writeCursor_hole {p : Block n} {k length_st : Nat} {b₁ rest : List (Block n)} {s : Block n}
    (hfull : ∀ t ∈ b₁, t.real = true) (hs : s.real = false) (hk : k + b₁.length < length_st) :
    writeCursor p k length_st (b₁ ++ s :: rest) = (b₁ ++ p :: rest, k + b₁.length + 1, length_st) := by
  induction b₁ generalizing k with
  | nil =>
    have hk' : k < length_st := by simpa using hk
    simp [writeCursor, hs, hk']
  | cons t b₁ ih =>
    rw [List.length_cons] at hk
    have hne : (k == length_st - 1) = false := beq_eq_false_iff_ne.mpr (by omega)
    have hrest := ih (fun u hu => hfull u (List.mem_cons_of_mem t hu)) (k := k + 1) (by omega)
    have hk' : k < length_st := by omega
    simp only [List.cons_append, writeCursor, hk', if_true, hfull t List.mem_cons_self, hne, hrest, List.length_cons,
      Bool.false_eq_true, if_false]
    rw [show k + 1 + b₁.length + 1 = k + (b₁.length + 1) + 1 by omega]

theorem writeCursor_full {p : Block n} {k length_st : Nat} {b rest : List (Block n)} {s : Block n}
    (hfull : ∀ t ∈ b, t.real = true) (hs : s.real = false) (hb : b ≠ []) (hk : k + b.length = length_st)
    (hmax : length_st + 8 ≤ MAX_STASH_NUM) :
    writeCursor p k length_st (b ++ s :: rest) = (b ++ p :: rest, length_st + 1, length_st + 8) := by
  induction b generalizing k with
  | nil => exact absurd rfl hb
  | cons t b ih =>
    rw [List.length_cons] at hk
    have ht := hfull t List.mem_cons_self
    have hk' : k < length_st := by omega
    have hmax' : ¬ MAX_STASH_NUM < length_st + 8 := not_lt.mpr hmax
    cases b with
    | nil =>
      have hlast : (k == length_st - 1) = true := beq_iff_eq.mpr (by rw [List.length_nil] at hk; omega)
      have hnext : writeCursor p (k + 1) (length_st + 8) ([] ++ s :: rest) =
          ([] ++ p :: rest, k + 1 + 0 + 1, length_st + 8) :=
        writeCursor_hole (by simp) hs (by rw [List.length_nil] at hk ⊢; omega)
      simp only [List.nil_append] at hnext
      rw [List.cons_append, List.nil_append, writeCursor, if_pos hk', if_pos ht, hlast, if_pos rfl, if_neg hmax', hnext,
        show k + 1 + 0 + 1 = length_st + 1 by rw [List.length_nil] at hk; omega]
      rfl
    | cons u b =>
      have hne : (k == length_st - 1) = false := beq_eq_false_iff_ne.mpr (by rw [List.length_cons] at hk; omega)
      have hrest := ih (fun v hv => hfull v (List.mem_cons_of_mem t hv)) (by simp) (k := k + 1) (by omega)
      rw [List.cons_append, writeCursor, if_pos hk', if_pos ht, hne, if_neg Bool.false_ne_true]
      rw [hrest]
      rfl

theorem writeCursor_past {p : Block n} {k length_st : Nat} (hk : length_st ≤ k) (slots : List (Block n)) :
    writeCursor p k length_st slots = (slots, k, length_st) := by
  cases slots with
  | nil => rfl
  | cons s slots => rw [writeCursor, if_neg (not_lt.mpr hk)]

/-- The slots are those behind the cursor, all real, the visible ones ahead of it, and those out of sight. -/
structure AtCursor (s : State L) (a b rest : List (Block L.bytes)) : Prop where
  stash : s.stash = a ++ (b ++ rest)
  length_st : s.length_st = a.length + b.length
  length : s.stash.length = MAX_STASH_NUM
  behind : ∀ t ∈ a, t.real = true
  hidden : ∀ t ∈ rest, t.real = false

theorem AtCursor.occupants {s : State L} {a b rest : List (Block L.bytes)} (h : AtCursor s a b rest) :
    (Slots.occupants Block.real s.stash).length = a.length + (Slots.occupants Block.real b).length := by
  rw [h.stash, occupants_append, occupants_append, occupants_of_full h.behind, occupants_of_holes h.hidden,
    List.append_nil, List.length_append]

section Turn
variable {s : State L} {a b rest : List (Block L.bytes)} {p : Block L.bytes} (hp : p.real = true)
include hp

/-- There is a dummy ahead. -/
theorem writeTurn_hole {b₁ b₂ : List (Block L.bytes)} {t : Block L.bytes} (h : AtCursor s a (b₁ ++ t :: b₂) rest)
    (hb₁ : ∀ u ∈ b₁, u.real = true) (ht : t.real = false) :
    writeTurn (s, a.length) p = ({ s with stash := insertFirst Block.real p s.stash }, (a ++ b₁ ++ [p]).length) ∧
      AtCursor { s with stash := insertFirst Block.real p s.stash } (a ++ b₁ ++ [p]) b₂ rest := by
  have htake : s.stash.take a.length = a := by rw [h.stash, List.take_left]
  have hdrop : s.stash.drop a.length = (b₁ ++ t :: b₂) ++ rest := by rw [h.stash, List.drop_left]
  have hfull : ∀ u ∈ a ++ b₁, u.real = true := fun u hu => (List.mem_append.mp hu).elim (h.behind u) (hb₁ u)
  have hlen := h.length_st
  rw [List.length_append, List.length_cons] at hlen
  have hinsert : insertFirst Block.real p s.stash = a ++ b₁ ++ [p] ++ (b₂ ++ rest) := by
    rw [h.stash, List.append_assoc, ← List.append_assoc, insertFirst_append_of_full hfull, List.cons_append,
      insertFirst_cons_hole ht]
    simp
  refine ⟨?_, hinsert, ?_, ?_, ?_, h.hidden⟩
  · unfold writeTurn
    rw [if_pos hp]
    dsimp only
    rw [hdrop, htake, List.append_assoc, List.cons_append, writeCursor_hole hb₁ ht (by omega), hinsert]
    simp [Nat.add_assoc]
  · simp only [hlen, List.length_append, List.length_cons, List.length_nil]
    omega
  · rw [length_insertFirst, h.length]
  · intro u hu
    rcases List.mem_append.mp hu with hu | hu
    · exact hfull u hu
    · rwa [List.mem_singleton.mp hu]

/-- The last visible slot is real: eight more come into sight. -/
theorem writeTurn_grow {t : Block L.bytes} (h : AtCursor s a b (t :: rest)) (hfull : ∀ u ∈ b, u.real = true)
    (hb : b ≠ []) (hgrow : s.length_st + 8 ≤ MAX_STASH_NUM) :
    writeTurn (s, a.length) p =
        ({ s with stash := insertFirst Block.real p s.stash, length_st := s.length_st + 8 }, (a ++ b ++ [p]).length) ∧
      AtCursor { s with stash := insertFirst Block.real p s.stash, length_st := s.length_st + 8 } (a ++ b ++ [p])
        (rest.take 7) (rest.drop 7) ∧ roomAhead b = roomAhead (rest.take 7) + 1 := by
  have htake : s.stash.take a.length = a := by rw [h.stash, List.take_left]
  have hdrop : s.stash.drop a.length = b ++ t :: rest := by rw [h.stash, List.drop_left]
  have ht : t.real = false := h.hidden t List.mem_cons_self
  have hfull' : ∀ u ∈ a ++ b, u.real = true := fun u hu => (List.mem_append.mp hu).elim (h.behind u) (hfull u)
  have hinsert : insertFirst Block.real p s.stash = a ++ b ++ [p] ++ rest := by
    rw [h.stash, ← List.append_assoc, insertFirst_append_of_full hfull', insertFirst_cons_hole ht]
    simp
  have hlen := h.length_st
  have hlen7 : (rest.take 7).length = 7 := by
    have hmax := h.length
    rw [h.stash, List.length_append, List.length_append, List.length_cons] at hmax
    rw [List.length_take, min_eq_left]
    omega
  have hseven : ∀ u ∈ rest.take 7, u.real = false := fun u hu =>
    h.hidden u (List.mem_cons_of_mem t (List.mem_of_mem_take hu))
  refine ⟨?_, ⟨?_, ?_, ?_, ?_, ?_⟩, ?_⟩
  · unfold writeTurn
    rw [if_pos hp]
    dsimp only
    rw [hdrop, htake, writeCursor_full hfull ht hb hlen.symm hgrow, hinsert]
    simp [hlen, Nat.add_assoc]
  · rw [List.take_append_drop]
    exact hinsert
  · simp only [hlen, List.length_append, List.length_cons, List.length_nil, hlen7]
  · rw [length_insertFirst, h.length]
  · intro u hu
    rcases List.mem_append.mp hu with hu | hu
    · exact hfull' u hu
    · rwa [List.mem_singleton.mp hu]
  · exact fun u hu => h.hidden u (List.mem_cons_of_mem t (List.mem_of_mem_drop hu))
  · rw [roomAhead_full hfull hb, roomAhead_holes hseven, hlen7]

/-- The cursor has filled the last visible slot. -/
theorem writeTurn_past (h : AtCursor s a [] rest) : writeTurn (s, a.length) p = (s, a.length) := by
  have hlen := h.length_st
  rw [List.length_nil, Nat.add_zero] at hlen
  unfold writeTurn
  rw [if_pos hp]
  dsimp only
  rw [writeCursor_past hlen.le]
  simp

/-- With room ahead the block goes to the first hole; without, it is dropped. -/
theorem writeTurn_spec (h : AtCursor s a b rest) (hload : (occupants Block.real s.stash).length < 90) :
    (roomAhead b = 0 ∧ b = [] ∧ writeTurn (s, a.length) p = (s, a.length)) ∨
      ∃ (a' b' rest' : List (Block L.bytes)) (length_st' : Nat),
        writeTurn (s, a.length) p =
          ({ s with stash := insertFirst Block.real p s.stash, length_st := length_st' }, a'.length) ∧
        roomAhead b = roomAhead b' + 1 ∧ s.length_st ≤ length_st' ∧
        AtCursor { s with stash := insertFirst Block.real p s.stash, length_st := length_st' } a' b' rest' := by
  by_cases hhole : ∃ t ∈ b, t.real = false
  · right
    obtain ⟨b₁, t, b₂, rfl, hb₁, ht⟩ := exists_first_hole hhole
    obtain ⟨hturn, hat⟩ := writeTurn_hole hp h hb₁ ht
    exact ⟨_, b₂, rest, s.length_st, hturn, roomAhead_hole hb₁ ht, le_refl _, hat⟩
  · push Not at hhole
    have hfull : ∀ t ∈ b, t.real = true := fun t ht => by simpa using hhole t ht
    by_cases hb : b = []
    · subst hb
      exact Or.inl ⟨rfl, rfl, writeTurn_past hp h⟩
    · right
      have hocc := h.occupants
      rw [occupants_of_full hfull] at hocc
      have hlen := h.length_st
      have hmax := h.length
      have hrest : rest.length + s.length_st = MAX_STASH_NUM := by
        rw [← hmax, h.stash, List.length_append, List.length_append]
        omega
      rw [MAX_STASH_NUM] at hrest
      obtain ⟨t, rest, rfl⟩ := List.exists_cons_of_length_pos (l := rest) (by omega)
      obtain ⟨hturn, hat, hroom⟩ := writeTurn_grow hp h hfull hb (by rw [MAX_STASH_NUM]; omega)
      exact ⟨_, _, _, _, hturn, hroom, Nat.le_add_right _ _, hat⟩

end Turn

theorem roomAhead_eq_zero {b : List (Block n)} (h : roomAhead b = 0) : b = [] := by
  by_contra hb
  unfold roomAhead at h
  have hfull : ∀ t ∈ b, t.real = true := by
    intro t ht
    have hzero : b.countP (fun s => !s.real) = 0 := by omega
    simpa using List.countP_eq_zero.mp hzero t ht
  have := roomAhead_full hfull hb
  unfold roomAhead at this
  omega

/-- The blocks of a path enter as long as there is room; the others are dropped. -/
theorem writeTurns_spec (ps : List (Block L.bytes)) {s : State L} {a b rest : List (Block L.bytes)}
    (h : AtCursor s a b rest)
    (hload : (occupants Block.real ps).length + (occupants Block.real s.stash).length ≤ 90) :
    ∃ (a' b' rest' : List (Block L.bytes)) (length_st' : Nat),
      ps.foldl writeTurn (s, a.length) =
        ({ s with
            stash := insertAll Block.real ((occupants Block.real ps).take (roomAhead b)) s.stash
            length_st := length_st' }, a'.length) ∧
      roomAhead b' = roomAhead b - (occupants Block.real ps).length ∧ s.length_st ≤ length_st' ∧
      AtCursor { s with
        stash := insertAll Block.real ((occupants Block.real ps).take (roomAhead b)) s.stash
        length_st := length_st' } a' b' rest' := by
  induction ps generalizing s a b rest with
  | nil => exact ⟨a, b, rest, s.length_st, by simp, by simp, le_refl _, by simpa using h⟩
  | cons p ps ih =>
    rw [List.foldl_cons]
    cases hp : p.real with
    | false =>
      have hturn : writeTurn (s, a.length) p = (s, a.length) := by
        unfold writeTurn
        rw [hp, if_neg Bool.false_ne_true]
      rw [hturn, occupants_cons_hole hp]
      rw [occupants_cons_hole hp] at hload
      exact ih h hload
    | true =>
      rw [occupants_cons_real hp, List.length_cons] at hload
      rw [occupants_cons_real hp]
      rcases writeTurn_spec hp h (by omega) with ⟨hzero, rfl, hturn⟩ | ⟨a₁, b₁, rest₁, len₁, hturn, hroom, hle, hat⟩
      · obtain ⟨a', b', rest', len', h1, h2, h3, h4⟩ := ih h (by omega)
        rw [hturn]
        rw [hzero] at h1 h2 h4 ⊢
        rw [List.take_zero] at h1 h4 ⊢
        exact ⟨a', b', rest', len', h1, by omega, h3, h4⟩
      · have hlen : (occupants Block.real (insertFirst Block.real p s.stash)).length =
            (occupants Block.real s.stash).length + 1 := by
          have hroom : (occupants Block.real s.stash).length < s.stash.length := by
            rw [h.length, MAX_STASH_NUM]
            omega
          rw [(occupants_insertFirst hp (exists_hole hroom)).length_eq, List.length_cons]
        obtain ⟨a', b', rest', len', h1, h2, h3, h4⟩ := ih hat (by dsimp only; omega)
        rw [hturn, hroom, List.take_succ_cons, insertAll_cons, if_pos hp]
        refine ⟨a', b', rest', len', h1, ?_, hle.trans h3, h4⟩
        rw [h2, List.length_cons]
        omega

/-- What `writeToStash` keeps of a path, and what it drops. -/
def State.kept (s : State L) (Path : List (List (Block L.bytes))) : List (Block L.bytes) :=
  (occupants Block.real Path.flatten).take s.room

def State.dropped (s : State L) (Path : List (List (Block L.bytes))) : List (Block L.bytes) :=
  (occupants Block.real Path.flatten).drop s.room

theorem kept_append_dropped (s : State L) (Path : List (List (Block L.bytes))) :
    s.kept Path ++ s.dropped Path = occupants Block.real Path.flatten := List.take_append_drop _ _

theorem occupants_kept (s : State L) (Path : List (List (Block L.bytes))) :
    occupants Block.real (s.kept Path) = s.kept Path :=
  occupants_of_full fun _ hc => (mem_occupants.mp (List.mem_of_mem_take hc)).2

theorem writeToStash_spec {s : State L} (h : StashShape s) {Path : List (List (Block L.bytes))}
    (hload : (occupants Block.real Path.flatten).length + (occupants Block.real s.stash).length ≤ 90) :
    ∃ length_st', writeToStash s Path =
        { s with stash := insertAll Block.real (s.kept Path) s.stash, length_st := length_st' } ∧
      StashShape { s with stash := insertAll Block.real (s.kept Path) s.stash, length_st := length_st' } ∧
      (s.dropped Path ≠ [] → ∀ t ∈ (insertAll Block.real (s.kept Path) s.stash).take length_st', t.real = true) := by
  have hat : AtCursor s [] (s.stash.take s.length_st) (s.stash.drop s.length_st) := by
    refine ⟨(List.take_append_drop _ _).symm, ?_, h.length, by simp, h.holes⟩
    rw [List.length_take, h.length, min_eq_left h.le, List.length_nil, Nat.zero_add]
  obtain ⟨a, b, rest, len, hfold, hroom, hle, hat'⟩ := writeTurns_spec Path.flatten hat hload
  obtain ⟨hstash, hlen, hmax, hbehind, hhidden⟩ := hat'
  change insertAll Block.real (s.kept Path) s.stash = a ++ (b ++ rest) at hstash
  change (insertAll Block.real (s.kept Path) s.stash).length = MAX_STASH_NUM at hmax
  dsimp only at hlen
  refine ⟨len, ?_, ⟨hmax, h.pos.trans hle, ?_, ?_⟩, ?_⟩
  · unfold writeToStash
    rw [show (s, 0) = (s, ([] : List (Block L.bytes)).length) from rfl, hfold]
    rfl
  · change len ≤ MAX_STASH_NUM
    rw [hlen, ← hmax, hstash, List.length_append, List.length_append]
    omega
  · change HolesFrom Block.real len (insertAll Block.real (s.kept Path) s.stash)
    rw [hstash, hlen, ← List.append_assoc, ← List.length_append]
    unfold HolesFrom
    rw [List.drop_left]
    exact hhidden
  · intro hne
    have hb : b = [] := by
      apply roomAhead_eq_zero
      have : roomAhead (s.stash.take s.length_st) < (occupants Block.real Path.flatten).length := by
        by_contra hle
        exact hne (List.drop_of_length_le (not_lt.mp hle))
      omega
    subst hb
    rw [hstash, hlen, List.length_nil, Nat.add_zero, List.take_left]
    exact hbehind

/-! ## A block that was dropped -/

theorem addMissing_full {nRecord bid : Nat} {pos : Bid} {i length_st : Nat} {b rest : List (Block n)} {s : Block n}
    (hfull : ∀ t ∈ b, t.real = true) (hs : s.real = false) (hb : b ≠ []) (hi : i + b.length = length_st)
    (hmax : length_st + 8 ≤ MAX_STASH_NUM) :
    addMissing nRecord bid pos i length_st (b ++ s :: rest) =
      (b ++ zeroBlock nRecord bid pos s :: rest, length_st + 8, some (zeroBlock nRecord bid pos s)) := by
  induction b generalizing i with
  | nil => exact absurd rfl hb
  | cons t b ih =>
    rw [List.length_cons] at hi
    have ht := hfull t List.mem_cons_self
    have hi' : i < length_st := by omega
    have hmax' : ¬ MAX_STASH_NUM < length_st + 8 := not_lt.mpr hmax
    have hreal : ¬ (!t.real) = true := by
      rw [ht]
      decide
    rw [List.cons_append, addMissing, if_pos hi', if_neg hreal]
    cases b with
    | nil =>
      have hlast : (i == length_st - 1) = true := beq_iff_eq.mpr (by rw [List.length_nil] at hi; omega)
      have hnext : i + 1 < length_st + 8 := by omega
      have hdummy : (!s.real) = true := by rw [hs]; rfl
      rw [hlast, if_pos rfl, if_neg hmax', List.nil_append, addMissing, if_pos hnext, if_pos hdummy]
      rfl
    | cons u b =>
      have hne : (i == length_st - 1) = false := beq_eq_false_iff_ne.mpr (by rw [List.length_cons] at hi; omega)
      have hrest := ih (fun v hv => hfull v (List.mem_cons_of_mem t hv)) (by simp) (i := i + 1) (by omega)
      rw [hne, if_neg Bool.false_ne_true, hrest]
      rfl

theorem readFirst_none {bid : Nat} (pos : Bid) {slots : List (Block n)} (h : ∀ b ∈ slots, b.blockID.val ≠ bid) :
    readFirst bid pos slots = (slots, none) := by
  induction slots with
  | nil => rfl
  | cons s slots ih =>
    have hs : (s.blockID.val == bid) = false := beq_eq_false_iff_ne.mpr (h s List.mem_cons_self)
    rw [readFirst, hs, if_neg Bool.false_ne_true, ih fun b hb => h b (List.mem_cons_of_mem s hb)]

/-- No copy, and every visible slot taken: the stash is extended once more and a zero block written. -/
theorem readFromStash_missing {s : State L} {bid : Nat} (hnone : ∀ b ∈ s.stash, b.blockID.val ≠ bid)
    (hfull : ∀ t ∈ s.stash.take s.length_st, t.real = true) (hpos : 0 < s.length_st)
    (hmax : s.length_st + 8 ≤ MAX_STASH_NUM) {d : Block L.bytes} {rest : List (Block L.bytes)}
    (hdrop : s.stash.drop s.length_st = d :: rest) (hd : d.real = false) (r : Int) (blk : Block L.bytes) :
    readFromStash s bid r blk =
      ({ s with
          stash := s.stash.take s.length_st ++ zeroBlock L.nRecord bid (drawLeaf L r) d :: rest
          length_st := s.length_st + 8
          pos_map := Function.update s.pos_map bid (drawLeaf L r) },
        zeroBlock L.nRecord bid (drawLeaf L r) d, true) := by
  have hlen : (s.stash.take s.length_st).length = s.length_st := by
    have := congrArg List.length hdrop
    rw [List.length_drop, List.length_cons] at this
    rw [List.length_take]
    omega
  have hne : s.stash.take s.length_st ≠ [] := by
    intro he
    rw [he, List.length_nil] at hlen
    omega
  have hadd : addMissing L.nRecord bid (drawLeaf L r) 0 s.length_st (s.stash.take s.length_st ++ d :: rest) = _ :=
    addMissing_full hfull hd hne (by rw [hlen, Nat.zero_add]) hmax
  unfold readFromStash
  simp only [readFirst_none (drawLeaf L r) fun b hb => hnone b (List.mem_of_mem_take hb), addIfMissing,
    Option.isSome_none, Bool.false_eq_true, if_false, hdrop, hadd, Option.getD_some, Option.isSome_some]

end FOSketch.Oram
