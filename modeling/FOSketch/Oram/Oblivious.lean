import FOSketch.Oram.Shown

/-!
# What an access reveals

Two accesses on one path, with one draw, are compared by the locations they touch. `OReadFromStash` writes `pos_map[bid]`
itself, so the two blocks must share a cache line. `ORebuildStash` looks up the position of every id in the stash and
stops accepting the accessed block at the levels that its new leaf does not share: the scans stay the same as long as
enough other blocks in front fill these levels (`Shielded`).
-/

namespace FOSketch.Oram

open Slots

variable {n : Nat} {L : Layout}

/-! ## The levels the new leaf does not share -/

def deep (L : Layout) (leaf pos i : Nat) : Bool := pos >>> (L.level - i) != leaf >>> (L.level - i)

theorem shiftRight_eq_of_le {a b x y : Nat} (hxy : x ≤ y) (h : a >>> x = b >>> x) : a >>> y = b >>> y := by
  obtain ⟨d, rfl⟩ := Nat.exists_eq_add_of_le hxy
  rw [Nat.shiftRight_add, Nat.shiftRight_add, h]

theorem deep_mono {leaf pos i j : Nat} (hij : i ≤ j) (h : deep L leaf pos i = true) : deep L leaf pos j = true := by
  unfold deep at *
  rw [bne_iff_ne] at *
  exact fun he => h (shiftRight_eq_of_le (Nat.sub_le_sub_left hij _) he)

theorem not_deep_zero {leaf pos : Nat} (hleaf : leaf < 2 ^ L.level) (hpos : pos < 2 ^ L.level) :
    deep L leaf pos 0 = false := by
  unfold deep
  rw [bne_eq_false_iff_eq, Nat.sub_zero, Nat.shiftRight_eq_div_pow, Nat.shiftRight_eq_div_pow,
    Nat.div_eq_of_lt hleaf, Nat.div_eq_of_lt hpos]

/-- The order of the scans. -/
def levels (L : Layout) : List Nat := (List.range (L.level + 1)).reverse

def deepLevels (L : Layout) (leaf pos : Nat) : List Nat := (levels L).takeWhile (deep L leaf pos)

def shallowLevels (L : Layout) (leaf pos : Nat) : List Nat := (levels L).dropWhile (deep L leaf pos)

theorem levels_pairwise : (levels L).Pairwise fun i j => j < i :=
  List.pairwise_reverse.mpr List.pairwise_lt_range

theorem mem_levels {i : Nat} : i ∈ levels L ↔ i ≤ L.level := by
  unfold levels
  rw [List.mem_reverse, List.mem_range, Nat.lt_succ_iff]

theorem getElem?_levels {k i : Nat} (h : (levels L)[k]? = some i) : k = L.level - i := by
  unfold levels at h
  obtain ⟨hlt, he⟩ := List.getElem?_eq_some_iff.mp h
  rw [List.getElem_reverse, List.getElem_range, List.length_range] at he
  rw [List.length_reverse, List.length_range] at hlt
  omega

theorem deep_append_shallow (leaf pos : Nat) : deepLevels L leaf pos ++ shallowLevels L leaf pos = levels L :=
  List.takeWhile_append_dropWhile

theorem eq_false_of_mem_dropWhile {α : Type*} {p : α → Bool} {l : List α} (hl : l.Pairwise fun x y => p y = true → p x = true)
    {x : α} (hx : x ∈ l.dropWhile p) : p x = false := by
  induction l with
  | nil => exact absurd hx List.not_mem_nil
  | cons y l ih =>
    obtain ⟨hy, hl⟩ := List.pairwise_cons.mp hl
    cases hpy : p y with
    | true =>
      rw [List.dropWhile_cons_of_pos hpy] at hx
      exact ih hl hx
    | false =>
      rw [List.dropWhile_cons_of_neg (by rw [hpy]; exact Bool.false_ne_true)] at hx
      rcases List.mem_cons.mp hx with rfl | hx
      · exact hpy
      · exact Bool.eq_false_iff.mpr fun hpx => absurd (hy x hx hpx) (by rw [hpy]; exact Bool.false_ne_true)

theorem not_deep_of_mem_shallow {leaf pos i : Nat} (h : i ∈ shallowLevels L leaf pos) : deep L leaf pos i = false := by
  have hmono : (levels L).Pairwise fun i j => deep L leaf pos j = true → deep L leaf pos i = true :=
    levels_pairwise.imp fun hji => deep_mono hji.le
  exact eq_false_of_mem_dropWhile hmono h

theorem mem_deepLevels {leaf pos i : Nat} : i ∈ deepLevels L leaf pos ↔ i ≤ L.level ∧ deep L leaf pos i = true := by
  constructor
  · intro h
    exact ⟨mem_levels.mp ((List.takeWhile_prefix _).subset h), List.mem_takeWhile_imp h⟩
  · rintro ⟨hi, hd⟩
    have hmem := mem_levels.mpr hi
    rw [← deep_append_shallow leaf pos] at hmem
    rcases List.mem_append.mp hmem with h | h
    · exact h
    · rw [not_deep_of_mem_shallow h] at hd
      exact absurd hd (by decide)

/-- A level that is not shared comes after all the deeper ones. -/
theorem length_of_deepLevels {leaf pos i : Nat} {a b : List Nat} (h : deepLevels L leaf pos = a ++ i :: b) :
    a.length = L.level - i := by
  apply getElem?_levels
  rw [← deep_append_shallow leaf pos, h, List.append_assoc, List.getElem?_append_right le_rfl]
  simp

theorem scanLevels_eq (leaf pos : Nat) : scanLevels L =
    (deepLevels L leaf pos).flatMap (List.replicate L.sizeBucket) ++
      (shallowLevels L leaf pos).flatMap (List.replicate L.sizeBucket) := by
  rw [← List.flatMap_append, deep_append_shallow]
  rfl

/-! ## Scans that do not get as far as the two blocks -/

/-- The ids in front of both blocks. -/
def ahead (b₁ b₂ : Nat) (ids : List Bid) : List Bid := ids.takeWhile fun c => c.val != b₁ && c.val != b₂

/-- At each level that the new leaf does not share, enough blocks in front fill the bucket and all below it. -/
def Shielded (L : Layout) (pos_map : Nat → Bid) (leaf pos : Nat) (front : List Bid) : Prop :=
  ∀ i ≤ L.level, deep L leaf pos i = true →
    (L.level - i + 1) * L.sizeBucket ≤ front.countP fun c => idReal c && idOnPath L.level pos_map leaf i c

/-- The blocks in front find room in the buckets exactly if every scan there finds one of them. -/
theorem allFound_iff_shielded {pos_map pos_map' : Nat → Bid} {leaf pos : Nat} {front : List Bid}
    (h : ∀ c ∈ front, pos_map' c.val = pos_map c.val) :
    AllFound idReal idErase
        (((deepLevels L leaf pos).flatMap (List.replicate L.sizeBucket)).map (idOnPath L.level pos_map' leaf)) front ↔
      Shielded L pos_map leaf pos front := by
  have hmono : (deepLevels L leaf pos).Pairwise fun i j => ∀ c, idReal c = true →
      idOnPath L.level pos_map' leaf i c = true → idOnPath L.level pos_map' leaf j c = true := by
    apply (levels_pairwise.sublist (List.takeWhile_prefix _).sublist).imp
    intro i j hij c _ hc
    unfold idOnPath at *
    rw [beq_iff_eq] at *
    exact shiftRight_eq_of_le (Nat.sub_le_sub_left hij.le _) hc
  have hcount : ∀ i, (front.countP fun c => idReal c && idOnPath L.level pos_map' leaf i c) =
      front.countP fun c => idReal c && idOnPath L.level pos_map leaf i c := by
    intro i
    apply List.countP_congr
    intro c hc
    rw [idOnPath, idOnPath, h c hc]
  rw [allFound_levels idReal_erase L.sizeBucket (idOnPath L.level pos_map' leaf) hmono]
  constructor
  · intro hall i hi hd
    obtain ⟨a, b, hab⟩ := List.append_of_mem (mem_deepLevels.mpr ⟨hi, hd⟩)
    rw [← length_of_deepLevels hab, ← hcount]
    exact hall a i b hab
  · intro hall a i b hab
    have hmem : i ∈ deepLevels L leaf pos := by
      rw [hab]
      simp
    obtain ⟨hi, hd⟩ := mem_deepLevels.mp hmem
    rw [length_of_deepLevels hab, hcount]
    exact hall i hi hd

section TwoBlocks
variable {pos_map : Nat → Bid} {leaf : Nat} {pos : Bid} {b₁ b₂ : Nat}

theorem update_eq_of_ne {b : Nat} {c : Bid} (h : c.val ≠ b) : Function.update pos_map b pos c.val = pos_map c.val :=
  Function.update_of_ne h _ _

/-- At a shared level both blocks stay eligible, whichever was accessed. -/
theorem idOnPath_shared (h₁ : (pos_map b₁).val = leaf) (h₂ : (pos_map b₂).val = leaf) {i : Nat}
    (hi : deep L leaf pos.val i = false) (c : Bid) :
    idOnPath L.level (Function.update pos_map b₁ pos) leaf i c =
      idOnPath L.level (Function.update pos_map b₂ pos) leaf i c := by
  have hpos : pos.val >>> (L.level - i) = leaf >>> (L.level - i) := by
    unfold deep at hi
    rwa [bne_eq_false_iff_eq] at hi
  have honce : ∀ {b : Nat}, (pos_map b).val = leaf → ((Function.update pos_map b pos c.val).val >>> (L.level - i) =
      (pos_map c.val).val >>> (L.level - i)) := by
    intro b hb
    by_cases hc : c.val = b
    · rw [hc, Function.update_self, hb, hpos]
    · rw [update_eq_of_ne hc]
  unfold idOnPath
  rw [honce h₁, honce h₂]

/-- At a level that is not shared the accessed block is no longer eligible, the other one is. -/
theorem idOnPath_ne (h₁ : (pos_map b₁).val = leaf) (h₂ : (pos_map b₂).val = leaf) (hb : b₁ ≠ b₂) {i : Nat}
    (hi : deep L leaf pos.val i = true) {x : Bid} (hx : x.val = b₁ ∨ x.val = b₂) :
    idOnPath L.level (Function.update pos_map b₁ pos) leaf i x ≠
      idOnPath L.level (Function.update pos_map b₂ pos) leaf i x := by
  have hpos : (pos.val >>> (L.level - i) == leaf >>> (L.level - i)) = false := by
    unfold deep at hi
    rw [bne_iff_ne] at hi
    rwa [beq_eq_false_iff_ne]
  unfold idOnPath
  rcases hx with hx | hx
  · rw [hx, Function.update_self, Function.update_of_ne hb, h₁, hpos, beq_self_eq_true]
    decide
  · rw [hx, Function.update_self, Function.update_of_ne hb.symm, h₂, hpos, beq_self_eq_true]
    decide

theorem split_ahead (b₂ : Nat) {ids : List Bid} (h : ∃ c ∈ ids, c.val = b₁) :
    ∃ x rest, ids = ahead b₁ b₂ ids ++ x :: rest ∧ (x.val = b₁ ∨ x.val = b₂) := by
  have hsplit := List.takeWhile_append_dropWhile (p := fun c : Bid => c.val != b₁ && c.val != b₂) (l := ids)
  cases hdrop : ids.dropWhile fun c : Bid => c.val != b₁ && c.val != b₂ with
  | nil =>
    obtain ⟨c, hc, he⟩ := h
    have := List.dropWhile_eq_nil_iff.mp hdrop c hc
    simp [he] at this
  | cons x rest =>
    refine ⟨x, rest, by rw [ahead, ← hdrop, hsplit], ?_⟩
    have hhead := List.head?_dropWhile_not (p := fun c : Bid => c.val != b₁ && c.val != b₂) ids
    rw [hdrop] at hhead
    simp only [List.head?_cons, Bool.and_eq_false_iff, bne_eq_false_iff_eq] at hhead
    exact hhead

theorem ne_of_mem_ahead {ids : List Bid} {c : Bid} (h : c ∈ ahead b₁ b₂ ids) : c.val ≠ b₁ ∧ c.val ≠ b₂ := by
  have := List.mem_takeWhile_imp h
  simpa using this

variable (h₁ : (pos_map b₁).val = leaf) (h₂ : (pos_map b₂).val = leaf) {ids : List Bid}
include h₁ h₂

theorem shownLines_eq_of_shielded (hfound : ∃ c ∈ ids, c.val = b₁)
    (h : Shielded L pos_map leaf pos.val (ahead b₁ b₂ ids)) :
    shownLines L (Function.update pos_map b₁ pos) leaf ids = shownLines L (Function.update pos_map b₂ pos) leaf ids := by
  obtain ⟨x, rest, hids, -⟩ := split_ahead b₂ hfound
  have hsame : ∀ c ∈ ahead b₁ b₂ ids, Function.update pos_map b₁ pos c.val = pos_map c.val :=
    fun c hc => update_eq_of_ne (ne_of_mem_ahead hc).1
  have hall := (allFound_iff_shielded hsame).mpr h
  unfold shownLines
  rw [scanLevels_eq leaf pos.val]
  conv_lhs => rw [hids]
  conv_rhs => rw [hids]
  rw [snapshots_eq_of_allFound idReal_erase (r := idOnPath L.level (Function.update pos_map b₂ pos) leaf) ?_ ?_ hall]
  · intro i _ c hc _
    obtain ⟨hc₁, hc₂⟩ := ne_of_mem_ahead hc
    rw [idOnPath, idOnPath, update_eq_of_ne hc₁, update_eq_of_ne hc₂]
  · intro i hi c _ _
    obtain ⟨j, hj, hij⟩ := List.mem_flatMap.mp hi
    rw [List.eq_of_mem_replicate hij]
    exact idOnPath_shared h₁ h₂ (not_deep_of_mem_shallow hj) c

theorem shielded_of_shownLines_eq (hleaf : leaf < 2 ^ L.level) (hpos : pos.val < 2 ^ L.level) (hb : b₁ ≠ b₂)
    (hline : lineOf b₁ = lineOf b₂) (hdummy : lineOf b₁ ≠ lineOf DUMMY_FLAG.val) (hfound : ∃ c ∈ ids, c.val = b₁)
    (h : shownLines L (Function.update pos_map b₁ pos) leaf ids = shownLines L (Function.update pos_map b₂ pos) leaf ids) :
    Shielded L pos_map leaf pos.val (ahead b₁ b₂ ids) := by
  rcases Nat.eq_zero_or_pos L.sizeBucket with hm | hm
  · intro i _ _
    rw [hm, Nat.mul_zero]
    exact Nat.zero_le _
  obtain ⟨x, rest, hids, hx⟩ := split_ahead b₂ hfound
  have hxline : lineOf x.val ≠ lineOf DUMMY_FLAG.val := by
    rcases hx with hx | hx
    · rwa [hx]
    · rwa [hx, ← hline]
  have hxreal : idReal x = true := by
    unfold idReal
    rw [bne_iff_ne]
    intro he
    exact hxline (by rw [he])
  have hgoods : (shallowLevels L leaf pos.val).flatMap (List.replicate L.sizeBucket) ≠ [] := by
    have hzero : 0 ∈ shallowLevels L leaf pos.val := by
      have hmem := mem_levels.mpr (Nat.zero_le L.level)
      rw [← deep_append_shallow leaf pos.val] at hmem
      rcases List.mem_append.mp hmem with h0 | h0
      · rw [mem_deepLevels, not_deep_zero hleaf hpos] at h0
        exact absurd h0.2 (by decide)
      · exact h0
    apply List.ne_nil_of_mem (a := 0)
    exact List.mem_flatMap.mpr ⟨0, hzero, List.mem_replicate.mpr ⟨hm.ne', rfl⟩⟩
  unfold shownLines at h
  rw [scanLevels_eq leaf pos.val, hids] at h
  have hall := allFound_of_snapshots idReal_erase (fun c : Bid => lineOf c.val) (lineOf DUMMY_FLAG.val)
    (fun _ => rfl) hxreal hxline ?_ ?_ hgoods h
  · exact (allFound_iff_shielded fun c hc => update_eq_of_ne (ne_of_mem_ahead hc).1).mp hall
  · intro i _ c hc _
    obtain ⟨hc₁, hc₂⟩ := ne_of_mem_ahead hc
    rw [idOnPath, idOnPath, update_eq_of_ne hc₁, update_eq_of_ne hc₂]
  · intro i hi
    obtain ⟨j, hj, hij⟩ := List.mem_flatMap.mp hi
    rw [List.eq_of_mem_replicate hij]
    exact idOnPath_ne h₁ h₂ hb (mem_deepLevels.mp hj).2 hx

end TwoBlocks

/-! ## After the first loop of `OReadFromStash` -/

theorem lateTrace_found {w : State L} (hw : Written w) {b : Nat} (h : foundIn b w.visible = true) (leaf : Nat) (r : Int)
    (blk : Block L.bytes) :
    lateTrace w leaf b r blk =
      (shownLines L (Function.update w.pos_map b (drawLeaf L r)) leaf (w.visible.map Block.blockID)).flatMap
          (linesTrace 0) ++
        ((if L.needComStash then compressTrace w.length_st else []) ++ pathTrace L.level leaf) := by
  obtain ⟨hlen, hmap, hids⟩ := OReadFromStash_found hw h r blk
  unfold lateTrace
  dsimp only
  rw [h, if_pos rfl, hlen, hmap, hids, List.nil_append, List.append_assoc]

/-- Swapping the two ids of a cache line, with their positions, shows the same. -/
theorem shownLines_swap {b₁ b₂ : Nat} (hb₁ : b₁ < 65535) (hb₂ : b₂ < 65535) (hline : lineOf b₁ = lineOf b₂)
    (pos_map : Nat → Bid) (pos : Bid) (leaf : Nat) {ids : List Bid} (hnot : ∀ c ∈ ids, c ≠ toBid b₂) :
    shownLines L (Function.update pos_map b₂ pos) leaf (ids.map (swapId b₁ b₂)) =
      shownLines L (Function.update pos_map b₁ pos) leaf ids := by
  have hval₂ : (toBid b₂).val = b₂ := Nat.mod_eq_of_lt (by omega)
  have hdummy : ∀ b < 65535, DUMMY_FLAG.val ≠ b := by
    intro b hlt he
    change 65535 = b at he
    omega
  have hreal : ∀ c : Bid, idReal (swapId b₁ b₂ c) = idReal c := by
    intro c
    by_cases hc : c.val = b₁
    · have h1 : idReal (toBid b₂) = true := bne_iff_ne.mpr fun he => hdummy b₂ hb₂ (by rw [← he, hval₂])
      have h2 : idReal c = true := bne_iff_ne.mpr fun he => hdummy b₁ hb₁ (by rw [← he, hc])
      rw [swapId, if_pos hc, h1, h2]
    · rw [swapId_of_ne b₂ hc]
  have hpath : ∀ i, ∀ c : Bid, c ≠ toBid b₂ → idOnPath L.level (Function.update pos_map b₂ pos) leaf i (swapId b₁ b₂ c) =
      idOnPath L.level (Function.update pos_map b₁ pos) leaf i c := by
    intro i c hc
    have hc₂ : c.val ≠ b₂ := fun he => hc (Fin.ext (by rw [he, hval₂]))
    unfold idOnPath
    by_cases hc₁ : c.val = b₁
    · rw [swapId, if_pos hc₁, hval₂, Function.update_self, hc₁, Function.update_self]
    · rw [swapId_of_ne b₂ hc₁, Function.update_of_ne hc₁, Function.update_of_ne hc₂]
  have hlines : ∀ c : Bid, lineOf (swapId b₁ b₂ c).val = lineOf c.val := by
    intro c
    by_cases hc : c.val = b₁
    · rw [swapId, if_pos hc, hval₂, hc, hline]
    · rw [swapId_of_ne b₂ hc]
  have hswap : snapshots idReal idErase ((scanLevels L).map (idOnPath L.level (Function.update pos_map b₂ pos) leaf))
      (ids.map (swapId b₁ b₂)) = (snapshots idReal idErase
        ((scanLevels L).map (idOnPath L.level (Function.update pos_map b₁ pos) leaf)) ids).map
          (List.map (swapId b₁ b₂)) :=
    snapshots_map (P := fun c => c ≠ toBid b₂) (fun _ he => hdummy b₂ hb₂ (by rw [← hval₂, ← he]; rfl))
      (fun c _ => hreal c) (fun _ _ => swapId_of_ne b₂ (hdummy b₁ hb₁)) (fun i c hc _ => hpath i c hc) _ hnot
  unfold shownLines
  rw [hswap, List.map_map]
  apply List.map_congr_left
  intro l _
  rw [Function.comp_apply, List.map_map]
  apply List.map_congr_left
  intro c _
  exact hlines c

/-- Two blocks of one cache line that are both out of sight. -/
theorem lateTrace_missing {w : State L} (hw : Written w) {b₁ b₂ : Nat} (hb₁ : b₁ < 65535) (hb₂ : b₂ < 65535)
    (hb : b₁ ≠ b₂) (hline : lineOf b₁ = lineOf b₂) (leaf : Nat) (h₁ : foundIn b₁ w.visible = false)
    (h₂ : foundIn b₂ w.visible = false) (r : Int) (blk₁ blk₂ : Block L.bytes) :
    lateTrace w leaf b₁ r blk₁ = lateTrace w leaf b₂ r blk₂ := by
  obtain ⟨hlen, hids, hnot, hmap₁, hmap₂⟩ := OReadFromStash_missing hw hb₁ hb₂ hb h₁ h₂ r blk₁ blk₂
  unfold lateTrace
  dsimp only
  rw [h₁, h₂, hlen, hids, hmap₁, hmap₂, shownLines_swap hb₁ hb₂ hline _ _ leaf hnot]

theorem getElem?_missingTrace {length_st : Nat} (hpos : DEFAULT_STASH_LENGTH ≤ length_st) (slots : List (Block n))
    (hlen : 2 ≤ slots.length) : ∃ k, (missingTrace 0 length_st slots)[1]? = some (.slot k) := by
  rw [DEFAULT_STASH_LENGTH] at hpos
  obtain ⟨s, t, slots, rfl⟩ : ∃ s t rest, slots = s :: t :: rest := by
    cases slots with
    | nil => simp at hlen
    | cons s slots =>
      cases slots with
      | nil => simp at hlen
      | cons t slots => exact ⟨s, t, slots, rfl⟩
  have h0 : 0 < length_st := by omega
  have h1 : 1 < length_st := by omega
  have hfirst : (0 == length_st - 1) = false := beq_eq_false_iff_ne.mpr (by omega)
  cases hs : s.real with
  | false => exact ⟨0, by simp [missingTrace, h0, hs]⟩
  | true =>
    refine ⟨1, ?_⟩
    rw [missingTrace, if_pos h0, hs, hfirst]
    simp only [Bool.not_true, Bool.false_eq_true, if_false, List.getElem?_cons_succ]
    unfold missingTrace
    rw [if_pos h1]
    split_ifs <;> rfl

/-- A block in sight and one out of sight are told apart. -/
theorem lateTrace_ne {w : State L} (hw : Written w) (hm : 0 < L.sizeBucket) {b₁ b₂ : Nat}
    (h₁ : foundIn b₁ w.visible = true) (h₂ : foundIn b₂ w.visible = false) (leaf : Nat) (r : Int)
    (blk₁ blk₂ : Block L.bytes) : lateTrace w leaf b₁ r blk₁ ≠ lateTrace w leaf b₂ r blk₂ := by
  intro he
  obtain ⟨c, ids, hids⟩ : ∃ c ids, w.visible.map Block.blockID = c :: ids := by
    apply List.exists_cons_of_length_pos
    rw [List.length_map, length_visible hw]
    exact lt_of_lt_of_le (by decide) hw.pos
  obtain ⟨i, is, his⟩ : ∃ i is, scanLevels L = i :: is := by
    apply List.exists_cons_of_ne_nil
    apply List.ne_nil_of_mem (a := 0)
    exact List.mem_flatMap.mpr ⟨0, mem_levels.mpr (Nat.zero_le _), List.mem_replicate.mpr ⟨hm.ne', rfl⟩⟩
  obtain ⟨k, hk⟩ := getElem?_missingTrace hw.pos w.stash (by rw [hw.length]; decide)
  have hleft : (lateTrace w leaf b₁ r blk₁)[1]? = some (.posLine (lineOf c.val)) := by
    rw [lateTrace_found hw h₁, hids, shownLines, his]
    rfl
  have hright : (lateTrace w leaf b₂ r blk₂)[1]? = some (.slot k) := by
    obtain ⟨hlt, -⟩ := List.getElem?_eq_some_iff.mp hk
    unfold lateTrace
    dsimp only
    rw [h₂, if_neg Bool.false_ne_true, List.append_assoc, List.append_assoc, List.getElem?_append_left hlt, hk]
  rw [he, hright] at hleft
  exact absurd hleft (by simp)

/-! ## Two accesses -/

/-- The ids in sight once the path of `leaf` is in the stash. -/
def State.inSight (s : State L) (leaf : Nat) : List Bid :=
  (OWriteToStash s (readPath s leaf)).visible.map Block.blockID

/-- The two blocks share a cache line, and the stash hides which of them was moved to `pos`. -/
def Concealed (s : State L) (b₁ b₂ : Nat) (pos : Bid) : Prop :=
  let leaf := (s.pos_map b₁).val
  let ids := s.inSight leaf
  lineOf b₁ = lineOf b₂ ∧
    (b₁ = b₂ ∨ (toBid b₁ ∉ ids ∧ toBid b₂ ∉ ids) ∨
      toBid b₁ ∈ ids ∧ toBid b₂ ∈ ids ∧ Shielded L s.pos_map leaf pos.val (ahead b₁ b₂ ids))

theorem foundIn_iff {b : Nat} (hb : b < 65535) {slots : List (Block n)} :
    foundIn b slots = true ↔ toBid b ∈ slots.map Block.blockID := by
  have hval : (toBid b).val = b := Nat.mod_eq_of_lt (by omega)
  unfold foundIn
  rw [List.any_eq_true, List.mem_map]
  constructor
  · rintro ⟨s, hs, he⟩
    exact ⟨s, hs, Fin.ext (by rw [beq_iff_eq.mp he, hval])⟩
  · rintro ⟨s, hs, he⟩
    exact ⟨s, hs, by rw [he, hval, beq_self_eq_true]⟩

/-- The slots behind the scan do not depend on the buffer. -/
theorem readScan_buffer (b : Nat) (pos : Bid) (slots : List (Block n)) (found : Bool) (c d : Block n) :
    (readScan copyIf b pos found c slots).1 = (readScan copyIf b pos found d slots).1 ∧
      (readScan copyIf b pos found c slots).2.2 = (readScan copyIf b pos found d slots).2.2 := by
  induction slots generalizing found c d with
  | nil => exact ⟨rfl, rfl⟩
  | cons s slots ih =>
    simp only [readScan]
    exact ⟨congrArg _ (ih _ _ _).1, (ih _ _ _).2⟩

/-- The state after `OReadFromStash` does not depend on what the block buffer held. -/
theorem lateTrace_blk (w : State L) (leaf b : Nat) (r : Int) (blk blk' : Block L.bytes) :
    lateTrace w leaf b r blk = lateTrace w leaf b r blk' := by
  have hstate : (OReadFromStash w b r blk).1 = (OReadFromStash w b r blk').1 := by
    rw [OReadFromStash_eq, OReadFromStash_eq]
    unfold readLoop addIfMissing
    dsimp only
    obtain ⟨h1, h2⟩ := readScan_buffer b (drawLeaf L r) (w.stash.take w.length_st) false blk blk'
    rw [h1, h2]
    split_ifs <;> rfl
  unfold lateTrace
  rw [hstate]

/-- Without places in the buckets every block is in the stash. -/
theorem found_of_no_buckets {s : State L} (h : WellFormed s) (hm : L.sizeBucket = 0) {b leaf : Nat} (hb : b < L.nBlock)
    (hleaf : (s.pos_map b).val = leaf) : foundIn b (OWriteToStash s (readPath s leaf)).visible = true := by
  have hempty : ∀ {l : List (List (Block L.bytes))}, (∀ bucket ∈ l, bucket.length = L.sizeBucket) → l.flatten = [] := by
    intro l hl
    rw [List.flatten_eq_nil_iff]
    exact fun bucket hbucket => List.eq_nil_of_length_eq_zero (by rw [hl bucket hbucket, hm])
  have hsame : OWriteToStash s (readPath s leaf) = s := by
    have hpath := hempty (readPath_shape h.toPlaced hb).2
    rw [hleaf] at hpath
    unfold OWriteToStash writeLoop
    rw [hpath]
    rfl
  rw [hsame]
  obtain ⟨c, hc, he⟩ := exists_copy h.toPlaced hb
  unfold State.copies at hc
  rw [hempty h.bucket_length, List.nil_append, ← h.holes.occupants_take] at hc
  unfold foundIn
  rw [List.any_eq_true]
  exact ⟨c, (mem_occupants.mp hc).1, beq_iff_eq.mpr he⟩

section Late
variable {w : State L} (hw : Written w) {b₁ b₂ leaf : Nat} (hb₁ : b₁ < 65535) (hb₂ : b₂ < 65535)
  (hleaf₁ : (w.pos_map b₁).val = leaf) (hleaf₂ : (w.pos_map b₂).val = leaf) (hline : lineOf b₁ = lineOf b₂)
include hw hb₁ hb₂ hleaf₁ hleaf₂ hline

theorem lateTrace_eq_of_concealed (r : Int) (blk₁ blk₂ : Block L.bytes)
    (h : b₁ = b₂ ∨ (¬foundIn b₁ w.visible = true ∧ ¬foundIn b₂ w.visible = true) ∨
      foundIn b₁ w.visible = true ∧ foundIn b₂ w.visible = true ∧
        Shielded L w.pos_map leaf (drawLeaf L r).val (ahead b₁ b₂ (w.visible.map Block.blockID))) :
    lateTrace w leaf b₁ r blk₁ = lateTrace w leaf b₂ r blk₂ := by
  rcases h with rfl | ⟨hf₁, hf₂⟩ | ⟨hf₁, hf₂, hshield⟩
  · exact lateTrace_blk w leaf b₁ r blk₁ blk₂
  · by_cases hb : b₁ = b₂
    · rw [hb]
      exact lateTrace_blk w leaf b₂ r blk₁ blk₂
    · exact lateTrace_missing hw hb₁ hb₂ hb hline leaf (by simpa using hf₁) (by simpa using hf₂) r _ _
  · rw [lateTrace_found hw hf₁, lateTrace_found hw hf₂, shownLines_eq_of_shielded hleaf₁ hleaf₂ ?_ hshield]
    exact ⟨_, (foundIn_iff hb₁).mp hf₁, Nat.mod_eq_of_lt (by omega)⟩

omit hb₂ in
theorem concealed_of_lateTrace_eq (hleaf : leaf < 2 ^ L.level) (hdummy : lineOf b₁ ≠ lineOf DUMMY_FLAG.val)
    (hfound₁ : L.sizeBucket = 0 → foundIn b₁ w.visible = true) (hfound₂ : L.sizeBucket = 0 → foundIn b₂ w.visible = true)
    {r : Int} {blk₁ blk₂ : Block L.bytes} (h : lateTrace w leaf b₁ r blk₁ = lateTrace w leaf b₂ r blk₂) :
    b₁ = b₂ ∨ (¬foundIn b₁ w.visible = true ∧ ¬foundIn b₂ w.visible = true) ∨
      foundIn b₁ w.visible = true ∧ foundIn b₂ w.visible = true ∧
        Shielded L w.pos_map leaf (drawLeaf L r).val (ahead b₁ b₂ (w.visible.map Block.blockID)) := by
  by_cases hb : b₁ = b₂
  · exact Or.inl hb
  right
  have hplaces : ∀ {b : Nat}, (L.sizeBucket = 0 → foundIn b w.visible = true) → foundIn b w.visible = false →
      0 < L.sizeBucket := by
    intro b hf hnf
    rcases Nat.eq_zero_or_pos L.sizeBucket with hm | hm
    · rw [hf hm] at hnf
      exact absurd hnf (by decide)
    · exact hm
  cases hf₁ : foundIn b₁ w.visible with
  | true =>
    cases hf₂ : foundIn b₂ w.visible with
    | true =>
      right
      rw [lateTrace_found hw hf₁, lateTrace_found hw hf₂, List.append_cancel_right_eq] at h
      refine ⟨rfl, rfl, shielded_of_shownLines_eq hleaf₁ hleaf₂ hleaf (drawLeaf_lt L r) hb hline hdummy ?_
        (shownLines_injective rfl h)⟩
      exact ⟨_, (foundIn_iff hb₁).mp hf₁, Nat.mod_eq_of_lt (by omega)⟩
    | false => exact absurd h (lateTrace_ne hw (hplaces hfound₂ hf₂) hf₁ hf₂ leaf r blk₁ blk₂)
  | false =>
    cases hf₂ : foundIn b₂ w.visible with
    | true => exact absurd h.symm (lateTrace_ne hw (hplaces hfound₁ hf₁) hf₂ hf₁ leaf r blk₂ blk₁)
    | false => exact Or.inl ⟨by decide, by decide⟩

end Late

/-! ### The condition in terms of stash and path -/

/-- The block is in sight, in the slots of the stash whose holes the path has filled. -/
theorem inSight_eq {s : State L} (h : WellFormed s) {b : Nat} (hb : b < L.nBlock) (hload : s.load b ≤ 100) :
    ∃ m, s.inSight (s.pos_map b).val = ((s.gathered b).map Block.blockID).take m ∧
      toBid b ∈ s.inSight (s.pos_map b).val := by
  have hpath : (occupants Block.real (readPath s (s.pos_map b).val).flatten).length +
      (occupants Block.real s.stash).length + PACE_STASH ≤ MAX_STASH_NUM + 1 := by
    unfold State.load at hload
    rw [PACE_STASH, MAX_STASH_NUM]
    omega
  obtain ⟨m, hwrite, hshape⟩ := writeLoop_spec (show 0 < PACE_STASH by decide) h.toStashShape hpath
  have hroom : s.load b ≤ s.stash.length := by
    rw [h.length, MAX_STASH_NUM]
    omega
  have hids : s.inSight (s.pos_map b).val = ((s.gathered b).take m).map Block.blockID := by
    rw [State.inSight, OWriteToStash_eq, hwrite]
    rfl
  obtain ⟨c, hc, hid⟩ := exists_copy h.toPlaced hb
  obtain ⟨-, hmem, -⟩ := visible_copy hshape.holes ((mem_gathered h.toPlaced hb hroom).2 c hc hid) hid
    (mem_occupants.mp hc).2 (count_gathered h.toPlaced hb hroom)
  refine ⟨m, by rw [hids, List.map_take], ?_⟩
  rw [hids]
  refine List.mem_map.mpr ⟨c, hmem, Fin.ext ?_⟩
  rw [hid, toBid_val, Nat.mod_eq_of_lt ((h.lt_dummy hb).trans (by decide))]

theorem ahead_take {b₁ b₂ m : Nat} {ids : List Bid} {c : Bid} (hc : c ∈ ids.take m) (he : c.val = b₁) :
    ahead b₁ b₂ (ids.take m) = ahead b₁ b₂ ids := by
  have hstop : ¬((ids.take m).takeWhile fun c => c.val != b₁ && c.val != b₂).length = (ids.take m).length := by
    intro hlen
    have hall := (List.takeWhile_prefix _).eq_of_length hlen
    have hne := List.mem_takeWhile_imp (hall.symm ▸ hc)
    simp [he] at hne
  conv_rhs => rw [← List.take_append_drop m ids]
  rw [ahead, ahead, List.takeWhile_append, if_neg hstop]

/-- As long as no more than 100 real blocks come together, both blocks are in sight, and the condition is one on the stash
and the path before the access. -/
theorem concealed_iff {s : State L} (h : WellFormed s) {b₁ b₂ : Nat} (h₁ : b₁ < L.nBlock) (h₂ : b₂ < L.nBlock)
    (hpos : s.pos_map b₁ = s.pos_map b₂) (hload : s.load b₁ ≤ 100) (pos : Bid) :
    Concealed s b₁ b₂ pos ↔ lineOf b₁ = lineOf b₂ ∧ (b₁ = b₂ ∨
      Shielded L s.pos_map (s.pos_map b₁).val pos.val (ahead b₁ b₂ ((s.gathered b₁).map Block.blockID))) := by
  obtain ⟨m, hids, hmem₁⟩ := inSight_eq h h₁ hload
  obtain ⟨-, -, hmem₂⟩ := inSight_eq h h₂ (by rwa [State.load, ← hpos])
  rw [← hpos] at hmem₂
  have hval : (toBid b₁).val = b₁ := Nat.mod_eq_of_lt ((h.lt_dummy h₁).trans (by decide))
  have hahead : ahead b₁ b₂ (s.inSight (s.pos_map b₁).val) = ahead b₁ b₂ ((s.gathered b₁).map Block.blockID) := by
    rw [hids] at hmem₁ ⊢
    exact ahead_take hmem₁ hval
  unfold Concealed
  dsimp only
  rw [hahead]
  simp only [hmem₁, hmem₂, not_true_eq_false, false_and, false_or, true_and]

/-- **What an access reveals.** Blocks of the dummies' own cache line are harder to tell apart, so there the condition is
only sufficient. -/
theorem OAccessTrace_eq_iff {s : State L} (h : WellFormed s) {i₁ i₂ : Nat} (h₁ : L.block i₁ < L.nBlock)
    (h₂ : L.block i₂ < L.nBlock) (hpos : s.pos_map (L.block i₁) = s.pos_map (L.block i₂)) (r : Int)
    (blk₁ blk₂ : Block L.bytes) :
    (Concealed s (L.block i₁) (L.block i₂) (drawLeaf L r) →
        OAccessTrace s i₁ r blk₁ = OAccessTrace s i₂ r blk₂) ∧
      (lineOf (L.block i₁) ≠ lineOf DUMMY_FLAG.val → OAccessTrace s i₁ r blk₁ = OAccessTrace s i₂ r blk₂ →
        Concealed s (L.block i₁) (L.block i₂) (drawLeaf L r)) := by
  obtain ⟨b₁, hb₁⟩ : ∃ b, L.block i₁ = b := ⟨_, rfl⟩
  obtain ⟨b₂, hb₂⟩ : ∃ b, L.block i₂ = b := ⟨_, rfl⟩
  obtain ⟨leaf, hleaf₁⟩ : ∃ leaf, (s.pos_map b₁).val = leaf := ⟨_, rfl⟩
  rw [hb₁] at h₁ hpos ⊢
  rw [hb₂] at h₂ hpos ⊢
  have hleaf₂ : (s.pos_map b₂).val = leaf := by rw [← hpos, hleaf₁]
  rw [OAccessTrace_eq h hb₁ h₁ hleaf₁, OAccessTrace_eq h hb₂ h₂ hleaf₂]
  have hfound₁ := fun hm => found_of_no_buckets h hm h₁ hleaf₁
  have hfound₂ := fun hm => found_of_no_buckets h hm h₂ hleaf₂
  have hlt₁ := h.lt_dummy h₁
  have hlt₂ := h.lt_dummy h₂
  have hw : Written (OWriteToStash s (readPath s leaf)) := h.toStashShape.written.OWriteToStash _
  have hmap := (OWriteToStash_frame s (readPath s leaf)).1
  unfold Concealed State.inSight
  dsimp only
  rw [hleaf₁, ← foundIn_iff hlt₁, ← foundIn_iff hlt₂]
  generalize OWriteToStash s (readPath s leaf) = w at *
  rw [← hmap] at hleaf₁ hleaf₂ ⊢
  have hleaf : leaf < 2 ^ L.level := by
    rw [← hleaf₁, hmap]
    exact h.pos_lt b₁ h₁
  constructor
  · rintro ⟨hline, hcase⟩
    rw [hline, lateTrace_eq_of_concealed hw hlt₁ hlt₂ hleaf₁ hleaf₂ hline r blk₁ blk₂ hcase]
  · intro hdummy he
    -- the parts before `OReadFromStash` differ in the cache line of the position map only
    rw [List.append_cancel_left_eq, List.append_cancel_left_eq, List.append_cancel_left_eq, List.cons.injEq,
      Event.posLine.injEq, List.append_cancel_left_eq] at he
    obtain ⟨hline, hlate⟩ := he
    exact ⟨hline, concealed_of_lateTrace_eq hw hlt₁ hleaf₁ hleaf₂ hline hleaf hdummy hfound₁ hfound₂ hlate⟩

theorem OAccessTrace_eq_iff_twoStashed :
    (Concealed twoStashed ((small 1 2).block 0) ((small 1 2).block 12) (drawLeaf (small 1 2) 4) →
        OAccessTrace twoStashed 0 4 (flat 1 2 0 0 0) = OAccessTrace twoStashed 12 4 (flat 1 2 0 0 0)) ∧
      (lineOf ((small 1 2).block 0) ≠ lineOf DUMMY_FLAG.val →
        OAccessTrace twoStashed 0 4 (flat 1 2 0 0 0) = OAccessTrace twoStashed 12 4 (flat 1 2 0 0 0) →
          Concealed twoStashed ((small 1 2).block 0) ((small 1 2).block 12) (drawLeaf (small 1 2) 4)) :=
  @OAccessTrace_eq_iff (small 1 2) _ twoStashed_wellFormed 0 12 (by decide) (by decide) rfl 4 _ _

/-- 33 blocks in the stash, the last of them in the second cache line of the position map. -/
def twoLines : State (small 1 33) :=
  sketchOf (small 1 33) (List.replicate 3 [flat 1 33 DUMMY_FLAG 0 0])
    ((List.range 33).map fun b => flat 1 33 (toBid b) 0 0) 33 fun _ => 0

theorem twoLines_wellFormed : WellFormed twoLines := by
  refine wellFormed_sketchOf (by decide) rfl (by decide) (by decide +kernel) (by decide +kernel) (by decide)
    (by decide +kernel)

theorem OAccessTrace_twoLines_ne :
    ¬ (∀ {L : Layout} {s : State L}, WellFormed s → ∀ i₁ i₂ : Nat, L.block i₁ < L.nBlock → L.block i₂ < L.nBlock →
      s.pos_map (L.block i₁) = s.pos_map (L.block i₂) → ∀ (r : Int) (blk₁ blk₂ : Block L.bytes),
        OAccessTrace s i₁ r blk₁ = OAccessTrace s i₂ r blk₂) := by
  intro hall
  have h := hall twoLines_wellFormed 0 384 (by decide) (by decide) rfl 0 (flat 1 33 0 0 0) (flat 1 33 0 0 0)
  revert h
  decide +kernel

end FOSketch.Oram
