import FOSketch.Oram.Invariant
import FOSketch.Slots.Compact

/-!
# The two ways to compress the stash

`compressStash` compacts the visible slots in place, `OCompressStash` sorts them by their ids. The orders differ, but the
blocks, the slots they take and `length_st` are the same (`compress_spec`).
-/

namespace FOSketch.Oram

open Slots

variable {L : Layout}

/-- `compressStash` without the counters that only a test prints. -/
def compressStash {L : Layout} (s : State L) : State L :=
  -- `curPos` and `insPos` are the two cursors
  let r := compact Block.real Block.erase s.length_st s.stash
  { s with
    stash := r.1
    length_st := if r.2 < DEFAULT_STASH_LENGTH then DEFAULT_STASH_LENGTH else r.2 }

def State.shown (s : State L) : List (Block L.bytes) := occupants Block.real (s.stash.take s.length_st)

/-- In `t` the stash of `s` is compressed: the real blocks fill the first slots, and all others are dummies. -/
structure Compressed (s t : State L) : Prop where
  length_st : t.length_st = max DEFAULT_STASH_LENGTH s.shown.length
  kept : (occupants Block.real t.stash).Perm s.shown
  front : ∀ b ∈ t.stash.take s.shown.length, b.real = true
  behind : HolesFrom Block.real s.shown.length t.stash
  length_stash : t.stash.length = s.stash.length
  tree : t.OblivSK = s.OblivSK
  pos_map : t.pos_map = s.pos_map

/-- `compressStash` keeps the order of the blocks. -/
theorem compressStash_split {s : State L} (h : Window s) :
    ∃ gap, (∀ b ∈ gap, b.real = false) ∧ (compressStash s).stash = s.shown ++ gap ++ s.stash.drop s.length_st ∧
      (compressStash s).length_st = max DEFAULT_STASH_LENGTH s.shown.length := by
  have hn : s.length_st ≤ s.stash.length := by
    rw [h.length]
    exact h.le
  obtain ⟨gap, hgap, hrun⟩ := compact_spec Block.real_erase hn
  refine ⟨gap, hgap, congrArg Prod.fst hrun, ?_⟩
  have hcount : (compact Block.real Block.erase s.length_st s.stash).2 = s.shown.length := congrArg Prod.snd hrun
  show (if _ < _ then _ else _) = _
  rw [hcount]
  split_ifs with hlt
  · rw [max_eq_left hlt.le]
  · rw [max_eq_right (not_lt.mp hlt)]

theorem compressStash_compressed {s : State L} (h : StashShape s) : Compressed s (compressStash s) := by
  obtain ⟨gap, hgap, hstash, hlength⟩ := compressStash_split h.window
  have hrest : ∀ b ∈ gap ++ s.stash.drop s.length_st, b.real = false := by
    intro b hb
    rcases List.mem_append.mp hb with hb | hb
    · exact hgap b hb
    · exact h.holes b hb
  have hshown : occupants Block.real s.shown = s.shown := by
    apply occupants_of_full
    exact fun b hb => (mem_occupants.mp hb).2
  rw [List.append_assoc] at hstash
  have hkept : occupants Block.real (compressStash s).stash = s.shown := by
    rw [hstash, occupants_append, hshown, occupants_of_holes hrest, List.append_nil]
  have hbehind : HolesFrom Block.real s.shown.length (compressStash s).stash := by
    rw [hstash]
    exact holesFrom_append hrest
  refine ⟨hlength, List.Perm.of_eq hkept, ?_, hbehind, ?_, rfl, rfl⟩
  · rw [← hkept] at hbehind ⊢
    exact hbehind.full
  · exact length_compact _ _

theorem OCompressStash_compressed {s : State L} (h : StashShape s) : Compressed s (OCompressStash s) := by
  obtain ⟨sorted, hsort, hperm, hpair, hlength⟩ := OCompressStash_split h.window
  have hshown : (occupants Block.real sorted).Perm s.shown := occupants_perm hperm
  have hkept : (occupants Block.real (OCompressStash s).stash).Perm s.shown := by
    rw [hsort, occupants_append, occupants_of_holes h.holes, List.append_nil]
    exact hshown
  have hbehind : HolesFrom Block.real s.shown.length (OCompressStash s).stash := by
    have hle : s.shown.length ≤ sorted.length := hshown.length_eq ▸ length_occupants_le sorted
    intro b hb
    rw [hsort, List.drop_append_of_le_length hle] at hb
    rcases List.mem_append.mp hb with hb | hb
    · rw [← hshown.length_eq] at hb
      exact holesFrom_of_sorted hpair b hb
    · exact h.holes b hb
  refine ⟨hshown.length_eq ▸ hlength, hkept, ?_, hbehind, (OCompressStash_perm s).length_eq, rfl, rfl⟩
  rw [← hkept.length_eq] at hbehind ⊢
  exact hbehind.full

/-- **Both compress the stash** to the same `length_st`, the same blocks and the same slots. -/
theorem compress_spec {s : State L} (h : StashShape s) :
    Compressed s (OCompressStash s) ∧ Compressed s (compressStash s) ∧
      (OCompressStash s).length_st = (compressStash s).length_st ∧
      (occupants Block.real (OCompressStash s).stash).Perm (occupants Block.real (compressStash s).stash) := by
  have ho := OCompressStash_compressed h
  have hc := compressStash_compressed h
  exact ⟨ho, hc, ho.length_st.trans hc.length_st.symm, ho.kept.trans hc.kept.symm⟩

/-- Blocks 1, 0 and 2 among the seven visible slots. -/
def mixedStash : State (small 1 3) :=
  let hole := flat 1 3 DUMMY_FLAG 0 9
  sketchOf (small 1 3) (List.replicate 3 [hole]) [hole, flat 1 3 1 0 7, hole, flat 1 3 0 1 8, hole, hole, flat 1 3 2 1 6] 7
    fun _ => 0

theorem mixedStash_shape : StashShape mixedStash := by
  refine ⟨by decide, by decide, by decide, ?_⟩
  unfold HolesFrom
  decide

theorem compress_mixedStash :
    Compressed mixedStash (OCompressStash mixedStash) ∧ Compressed mixedStash (compressStash mixedStash) ∧
      (OCompressStash mixedStash).length_st = (compressStash mixedStash).length_st ∧
      (occupants Block.real (OCompressStash mixedStash).stash).Perm
        (occupants Block.real (compressStash mixedStash).stash) :=
  compress_spec mixedStash_shape

end FOSketch.Oram
