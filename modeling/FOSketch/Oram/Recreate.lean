import FOSketch.Oram.Written

/-!
# A block that is created again

`OReadFromStash` makes a new block in the first visible dummy when the stash does not hold the id it looks for, and clears
`nRecord` bytes of it. In a sketch of counters these are all its bytes. In a flow table they are as many bytes as the block
has items, and the rest of the payload is what the slot held before (`OReadFromStash_blank_iff`).
-/

namespace FOSketch.Oram

open Slots

variable {n : Nat} {L : Layout}

def Blank (b : Block L.bytes) : Prop := ∀ k < L.sizeBlock - L.payloadInd, byteAt L b k = 0

def State.firstDummy (s : State L) : Option (Block L.bytes) := s.visible.find? fun b => !b.real

/-- A new block, without a trace of the one that lay there. -/
structure Recreated (bid pos : Bid) (b : Block L.bytes) : Prop where
  blockID : b.blockID = bid
  pos : b.pos = pos
  blank : Blank b

/-- `OReadFromStash` returns true with a new block in `Block` and in the stash. -/
def Creates (s : State L) (bid : Bid) (r : Int) (blk : Block L.bytes) : Prop :=
  let t := OReadFromStash s bid.val r blk
  t.2.2 = true ∧ Recreated bid (drawLeaf L r) t.2.1 ∧ ∃ c ∈ t.1.visible, Recreated bid (drawLeaf L r) c

/-! ## The slot -/

theorem addMissing_hole {nRecord bid : Nat} {pos : Bid} {i length_st : Nat} {b rest : List (Block n)} {s : Block n}
    (hfull : ∀ t ∈ b, t.real = true) (hs : s.real = false) (hi : i + b.length < length_st) :
    addMissing nRecord bid pos i length_st (b ++ s :: rest) =
      (b ++ zeroBlock nRecord bid pos s :: rest, length_st, some (zeroBlock nRecord bid pos s)) := by
  induction b generalizing i with
  | nil =>
    have hdummy : (!s.real) = true := by rw [hs]; rfl
    rw [List.nil_append, addMissing, if_pos (by simpa using hi), if_pos hdummy]
    rfl
  | cons t b ih =>
    rw [List.length_cons] at hi
    have hreal : ¬ (!t.real) = true := by
      rw [hfull t List.mem_cons_self]
      decide
    have hne : (i == length_st - 1) = false := beq_eq_false_iff_ne.mpr (by omega)
    have hrest := ih (fun v hv => hfull v (List.mem_cons_of_mem t hv)) (i := i + 1) (by omega)
    rw [List.cons_append, addMissing, if_pos (by omega), if_neg hreal, hne, if_neg Bool.false_ne_true, hrest]
    rfl

/-- The id is not found, and the block is made in the first dummy. -/
theorem OReadFromStash_create {s : State L} {bid : Bid} (hno : ∀ b ∈ s.stash, b.blockID ≠ bid)
    {b rest : List (Block L.bytes)} {d : Block L.bytes} (hfull : ∀ t ∈ b, t.real = true) (hd : d.real = false)
    (hsplit : s.stash.take s.length_st = b ++ d :: rest) (r : Int) (blk : Block L.bytes) :
    OReadFromStash s bid.val r blk =
      ({ s with
          stash := b ++ zeroBlock L.nRecord bid.val (drawLeaf L r) d :: (rest ++ s.stash.drop s.length_st)
          pos_map := Function.update s.pos_map bid.val (drawLeaf L r) },
        zeroBlock L.nRecord bid.val (drawLeaf L r) d, true) := by
  have hfound : foundIn bid.val (s.stash.take s.length_st) = false := by
    unfold foundIn
    rw [List.any_eq_false]
    intro c hc he
    exact hno c (List.mem_of_mem_take hc) (Fin.ext (beq_iff_eq.mp he))
  have hlt : 0 + b.length < s.length_st := by
    have hlen := congrArg List.length hsplit
    rw [List.length_take, List.length_append, List.length_cons] at hlen
    omega
  have hscan := readScan_missing (drawLeaf L r) blk hfound
  rw [hsplit] at hscan
  have hadd : addMissing L.nRecord bid.val (drawLeaf L r) 0 s.length_st (b ++ d :: (rest ++ s.stash.drop s.length_st)) = _ :=
    addMissing_hole hfull hd hlt
  rw [OReadFromStash_eq]
  unfold readLoop
  simp only [hsplit, hscan, addIfMissing, Bool.false_eq_true, if_false, List.append_assoc, List.cons_append, hadd,
    Option.getD_some, Option.isSome_some]

/-! ## The payload -/

theorem byteAt_zeroBlock (bid : Nat) (pos : Bid) (d : Block L.bytes) (k : Nat) :
    byteAt L (zeroBlock L.nRecord bid pos d) k =
      if L.payloadInd - 2 * sizeofBid + k < L.nRecord then 0 else byteAt L d k := by
  unfold byteAt zeroBlock
  dsimp only
  split_ifs <;> rfl

theorem payload_lt_nRecord (h : L.sketchType ≠ .T) {k : Nat} (hk : k < L.sizeBlock - L.payloadInd) :
    L.payloadInd - 2 * sizeofBid + k < L.nRecord := by
  unfold Layout.nRecord Layout.payloadInd Layout.elemSize at *
  cases hC : L.sketchType with
  | T => exact absurd hC h
  | C =>
    simp only [hC] at hk ⊢
    rw [Nat.div_one]
    omega
  | L =>
    simp only [hC] at hk ⊢
    rw [Nat.div_one]
    omega

/-- The bytes `memset` does not reach are zero already. -/
def LeftBlank (d : Block L.bytes) : Prop :=
  L.sketchType = .T → ∀ k < L.sizeBlock - L.payloadInd, L.nRecord ≤ L.payloadInd - 2 * sizeofBid + k → byteAt L d k = 0

theorem blank_zeroBlock_iff (bid : Nat) (pos : Bid) (d : Block L.bytes) :
    Blank (zeroBlock L.nRecord bid pos d) ↔ LeftBlank d := by
  unfold Blank LeftBlank
  simp only [byteAt_zeroBlock]
  constructor
  · intro h _ k hk hle
    have hzero := h k hk
    rwa [if_neg (not_lt.mpr hle)] at hzero
  · intro h k hk
    split_ifs with hlt
    · rfl
    · apply h _ k hk (not_lt.mp hlt)
      by_contra hT
      exact hlt (payload_lt_nRecord hT hk)

/-- **The new block is blank** exactly if the bytes that are not cleared were zero. -/
theorem OReadFromStash_blank_iff {s : State L} {bid : Bid} (hno : ∀ b ∈ s.stash, b.blockID ≠ bid)
    (hdummy : ∃ b ∈ s.visible, b.real = false) (r : Int) (blk : Block L.bytes) :
    Creates s bid r blk ↔ ∀ d, s.firstDummy = some d → LeftBlank d := by
  obtain ⟨b, d, rest, hsplit, hfull, hd⟩ := exists_first_hole hdummy
  have hfirst : s.firstDummy = some d := by
    unfold State.firstDummy
    rw [hsplit, List.find?_append, List.find?_eq_none.mpr fun t ht => by rw [hfull t ht]; decide, Option.none_or,
      List.find?_cons_of_pos (by rw [hd]; rfl)]
  have hlen : b.length < s.length_st := by
    have hlen := congrArg List.length hsplit
    rw [State.visible, List.length_take, List.length_append, List.length_cons] at hlen
    omega
  have hid : toBid bid.val = bid := Fin.ext (Nat.mod_eq_of_lt bid.isLt)
  unfold Creates
  rw [OReadFromStash_create hno hfull hd hsplit, hfirst]
  dsimp only
  constructor
  · rintro ⟨-, hblk, -⟩ c hc
    rw [Option.some.injEq] at hc
    rw [← hc]
    exact (blank_zeroBlock_iff _ _ d).mp hblk.blank
  · intro h
    have hnew : Recreated bid (drawLeaf L r) (zeroBlock L.nRecord bid.val (drawLeaf L r) d) :=
      ⟨hid, rfl, (blank_zeroBlock_iff _ _ d).mpr (h d rfl)⟩
    refine ⟨rfl, hnew, _, ?_, hnew⟩
    unfold State.visible
    rw [List.take_append, List.mem_append]
    apply Or.inr
    dsimp only
    rw [show s.length_st - b.length = s.length_st - b.length - 1 + 1 by omega, List.take_succ_cons]
    exact List.mem_cons_self

/-! ## A table of two blocks -/

def smallTable : Layout where
  sketchType := .T
  sizeBlock := 16
  sizeBucket := 1
  nBlock := 2
  level := 1
  needComStash := false
  sizeBlock_eq := sizeBlock_16
  level_lt := level_1

/-- An empty stash whose slots hold the byte `v` throughout. -/
def staleStash (v : Byte) : State smallTable where
  stash := List.replicate 5 ⟨DUMMY_FLAG, 0, fun _ => v⟩
  length_st := 5
  OblivSK := List.replicate 3 [⟨DUMMY_FLAG, 0, fun _ => 0⟩]
  pos_map := fun _ => 0

theorem OReadFromStash_blank_cleared : Creates (staleStash 0) 1 0 ⟨0, 0, fun _ => 0⟩ := by
  apply (OReadFromStash_blank_iff (by decide) (by decide) 0 _).mpr
  intro d hd _ k _ _
  obtain rfl : ⟨DUMMY_FLAG, 0, fun _ => 0⟩ = d := Option.some.inj hd
  unfold byteAt
  dsimp only
  split_ifs <;> rfl

/-- Byte `4` of the new item is a byte of the block that lay there. -/
theorem OReadFromStash_exposes :
    let t := OReadFromStash (staleStash 7) 1 0 ⟨0, 0, fun _ => 0⟩
    (∀ b ∈ (staleStash 7).stash, b.blockID ≠ 1) ∧ (∃ b ∈ (staleStash 7).visible, b.real = false) ∧
      ¬ Creates (staleStash 7) 1 0 ⟨0, 0, fun _ => 0⟩ ∧ t.2.1.blockID = 1 ∧ byteAt smallTable t.2.1 4 = 7 := by
  refine ⟨by decide, by decide, ?_, by decide, by decide⟩
  rintro ⟨-, hblk, -⟩
  exact absurd (hblk.blank 4 (by decide)) (by decide)

end FOSketch.Oram
