import FOSketch.Oram.Filled
import FOSketch.Oram.Bounds
import FOSketch.Oram.Lockstep
import FOSketch.Relabel

/-!
# The paths of a run are uniform

`rand` fills an `int` with four random bytes. Every controller looks up the leaf of the block in the position map, reads the
path to it, and draws a new leaf for the block. So the leaves of a run are labels that are drawn anew whenever they are shown
(`watch_eq`): from `Init_OCU` on they are uniform and independent, whichever blocks are accessed (`leaves_uniform`), also if
the next access depends on the paths so far.
-/

namespace FOSketch.Oram

open Relabel

variable {L : Layout}

/-! ## The controllers -/

inductive Controller where
  | OAccess
  | OAccess_S
  | OAccess_F
  | access

namespace Controller

def block : Controller → Layout → Nat → Nat
  | .OAccess, L, index => (toBid (L.block index)).val
  | _, L, index => index / L.nRecord

def leaf (c : Controller) (s : State L) (index : Nat) : Nat :=
  match c with
  | .OAccess => (lookUpLine s.pos_map L.nBlock (c.block L index)).val
  | .OAccess_S => (lookUpAll s.pos_map L.nBlock (c.block L index)).val
  | .OAccess_F => (lookUpLine s.pos_map L.nBlock (c.block L index)).val
  | .access => (s.pos_map (c.block L index)).val

def next (c : Controller) (s : State L) (index : Nat) (r : Int) (blk : Block L.bytes) : State L :=
  match c with
  | .OAccess => (Oram.OAccess s index r blk).1
  | .OAccess_S => (Oram.OAccess_S s index r blk).1
  | .OAccess_F => (Oram.OAccess_F s index r blk).1
  | .access => (Oram.access s index r blk).1

end Controller

/-! ## What an access does to the position map -/

theorem writeLoop_pos_map (pace : Nat) (move : Block L.bytes → Block L.bytes → Bool → Block L.bytes) (s : State L)
    (Path : List (List (Block L.bytes))) : (writeLoop pace move s Path).pos_map = s.pos_map := by
  unfold writeLoop
  induction Path.flatten generalizing s with
  | nil => rfl
  | cons p ps ih =>
    rw [List.foldl_cons, ih]

theorem writeToStash_pos_map (s : State L) (Path : List (List (Block L.bytes))) :
    (writeToStash s Path).pos_map = s.pos_map := by
  have hturn : ∀ (t : State L × Nat) (p : Block L.bytes), (writeTurn t p).1.pos_map = t.1.pos_map := by
    intro t p
    unfold writeTurn
    split <;> rfl
  unfold writeToStash
  generalize 0 = pos_st
  induction Path.flatten generalizing s pos_st with
  | nil => rfl
  | cons p ps ih => exact (ih (writeTurn (s, pos_st) p).1 (writeTurn (s, pos_st) p).2).trans (hturn (s, pos_st) p)

theorem addIfMissing_pos_map (s : State L) (bid : Nat) (pos : Bid) (blk : Block L.bytes) (found : Bool) :
    (addIfMissing s bid pos blk found).1.pos_map = s.pos_map := by
  unfold addIfMissing
  split <;> rfl

theorem readLoop_pos_map (move : Block L.bytes → Block L.bytes → Bool → Block L.bytes) (s : State L) (bid : Nat) (r : Int)
    (blk : Block L.bytes) : (readLoop move s bid r blk).1.pos_map = Function.update s.pos_map bid (drawLeaf L r) := by
  unfold readLoop
  exact addIfMissing_pos_map _ _ _ _ _

theorem readFromStash_pos_map (s : State L) (bid : Nat) (r : Int) (blk : Block L.bytes) :
    (readFromStash s bid r blk).1.pos_map = Function.update s.pos_map bid (drawLeaf L r) := by
  unfold readFromStash
  exact addIfMissing_pos_map _ _ _ _ _

theorem Controller.next_pos_map (c : Controller) (hn : L.nBlock ≤ 65536) (s : State L) {index : Nat}
    (hb : c.block L index < L.nBlock) (r : Int) (blk : Block L.bytes) :
    (c.next s index r blk).pos_map = Function.update s.pos_map (c.block L index) (drawLeaf L r) := by
  have hmod : c.block L index % 4294967296 = c.block L index := Nat.mod_eq_of_lt (by omega)
  cases c with
  | OAccess =>
    simp only [next, Oram.OAccess, pushPath, (ORebuildStash_frame _ _ _).1, (OReadFromStash_frame _ _ _ _).1, block]
    rw [OWriteToStash_eq, writeLoop_pos_map]
  | OAccess_S =>
    change (readLoop copyIf (writeLoop 8 copyIf s _) (index / L.nRecord % 4294967296) r blk).1.pos_map = _
    rw [readLoop_pos_map, writeLoop_pos_map]
    exact congrArg (fun b => Function.update s.pos_map b (drawLeaf L r)) hmod
  | OAccess_F =>
    change (readLoop copyIf (writeLoop 8 copyIf s _) (index / L.nRecord % 4294967296) r blk).1.pos_map = _
    rw [readLoop_pos_map, writeLoop_pos_map]
    exact congrArg (fun b => Function.update s.pos_map b (drawLeaf L r)) hmod
  | access =>
    change (readFromStash (writeToStash s _) (index / L.nRecord % 4294967296) r blk).1.pos_map = _
    rw [readFromStash_pos_map, writeToStash_pos_map]
    exact congrArg (fun b => Function.update s.pos_map b (drawLeaf L r)) hmod

theorem Controller.leaf_eq (c : Controller) (s : State L) {index : Nat} (hb : c.block L index < L.nBlock) :
    c.leaf s index = (s.pos_map (c.block L index)).val := by
  cases c with
  | OAccess => exact congrArg Fin.val (lookUpLine_eq s.pos_map hb)
  | OAccess_S => exact congrArg Fin.val (lookUpAll_eq s.pos_map hb)
  | OAccess_F => exact congrArg Fin.val (lookUpLine_eq s.pos_map hb)
  | access => rfl

/-! ## Runs -/

/-- The leaves of a run; `choose` picks the next index and what `Block` holds, from the leaves so far, and the numbers are
what `rand` returns. -/
def Controller.watch (c : Controller) (choose : List Nat → Nat × Block L.bytes) : State L → List Nat → List Int → List Nat
  | _, _, [] => []
  | s, seen, r :: rs =>
    let q := choose seen
    let leaf := c.leaf s q.1
    leaf :: c.watch choose (c.next s q.1 r q.2) (seen ++ [leaf]) rs

def leafOf (L : Layout) (r : Int) : Fin L.nLeaf := ⟨(drawLeaf L r).val, drawLeaf_lt L r⟩

section Watch
variable (c : Controller) (hn : L.nBlock ≤ 65536) {choose : List Nat → Nat × Block L.bytes}
  (hchoose : ∀ seen, c.block L (choose seen).1 < L.nBlock)

def chosen (seen : List (Fin L.nLeaf)) : Fin L.nBlock := ⟨c.block L (choose (seen.map Fin.val)).1, hchoose _⟩

include hn in
/-- The leaves of a run are labels that are drawn anew whenever they are shown. -/
theorem watch_eq (rs : List Int) (s : State L) (p : Fin L.nBlock → Fin L.nLeaf)
    (hp : ∀ b, (s.pos_map b.val).val = (p b).val) (seen : List (Fin L.nLeaf)) :
    c.watch choose s (seen.map Fin.val) rs =
      (reveal (chosen c hchoose) p seen (rs.map (leafOf L))).1.map Fin.val := by
  induction rs generalizing s p seen with
  | nil => rfl
  | cons r rs ih =>
    have hleaf : c.leaf s (choose (seen.map Fin.val)).1 = (p (chosen c hchoose seen)).val :=
      (c.leaf_eq s (hchoose _)).trans (hp (chosen c hchoose seen))
    have hnext := ih (c.next s (choose (seen.map Fin.val)).1 r (choose (seen.map Fin.val)).2)
      (Function.update p (chosen c hchoose seen) (leafOf L r)) ?_ (seen ++ [p (chosen c hchoose seen)])
    · rw [List.map_append, List.map_singleton] at hnext
      rw [Controller.watch, List.map_cons, reveal]
      dsimp only
      rw [hleaf, hnext, List.map_cons]
    · intro b
      rw [c.next_pos_map hn s (hchoose _)]
      by_cases hb : b = chosen c hchoose seen
      · subst hb
        rw [Function.update_self]
        exact congrArg Fin.val (Function.update_self (c.block L (choose (seen.map Fin.val)).1) (drawLeaf L r) s.pos_map)
      · have hne : b.val ≠ c.block L (choose (seen.map Fin.val)).1 := fun he => hb (Fin.ext he)
        rw [Function.update_of_ne hb, Function.update_of_ne hne, hp]

end Watch

/-! ## Uniform draws -/

/-- What `rand` returns for four random bytes. -/
def randInt (r : U32) : Int := toInt32 r.val

theorem toSize_randInt (r : U32) {k : Nat} (hk : k ≤ 32) : toSize (randInt r) % 2 ^ k = r.val % 2 ^ k := by
  have hdvd : (2 : Nat) ^ k ∣ 4294967296 := pow_dvd_pow 2 hk
  have hdvd' : (4294967296 : Nat) ∣ 18446744073709551616 := ⟨4294967296, rfl⟩
  have hmod : toSize (randInt r) % 4294967296 = r.val := by
    have hr := r.isLt
    unfold randInt toSize toInt32
    rw [Int.bmod_def]
    split_ifs <;> omega
  rw [← Nat.mod_mod_of_dvd _ hdvd, hmod]

theorem drawLeaf_randInt (L : Layout) (r : U32) : (drawLeaf L (randInt r)).val = r.val % L.nLeaf := by
  have hlevel := L.level_lt
  have hlt : r.val % 2 ^ L.level < 65536 :=
    (Nat.mod_lt _ (Nat.two_pow_pos _)).trans_le (Nat.pow_le_pow_right (by decide) (by omega : L.level ≤ 16))
  unfold drawLeaf Layout.nLeaf
  rw [toSize_randInt r (by omega), toBid_val, Nat.mod_eq_of_lt hlt]

instance neZero_nLeaf (L : Layout) : NeZero L.nLeaf := ⟨(Nat.two_pow_pos _).ne'⟩

theorem two_pow_split (L : Layout) : 4294967296 = 2 ^ (32 - L.level) * L.nLeaf := by
  have hlevel := L.level_lt
  have hsum : 32 - L.level + L.level = 32 := by omega
  calc 4294967296 = 2 ^ 32 := rfl
    _ = 2 ^ (32 - L.level) * L.nLeaf := by rw [Layout.nLeaf, ← pow_add, hsum]

/-- The four bytes are a leaf and the rest. -/
def randEquiv (L : Layout) : U32 ≃ Fin L.nLeaf × Fin (2 ^ (32 - L.level)) :=
  ((finCongr (two_pow_split L)).trans finProdFinEquiv.symm).trans (Equiv.prodComm _ _)

theorem randEquiv_fst (L : Layout) (r : U32) : (randEquiv L r).1 = leafOf L (randInt r) :=
  Fin.ext (drawLeaf_randInt L r).symm

/-- **Path security**: from `Init_OCU` on the leaves of a run are uniform and independent, whichever blocks are accessed. -/
theorem leaves_uniform {sketchType : SketchType} {size_sk sizeBlock sizeBucket : Nat} {needComStash : Bool}
    {hsize : ∃ e, 4 ≤ e ∧ e ≤ 15 ∧ sizeBlock = 2 ^ e}
    (h : layoutOf sketchType size_sk sizeBlock sizeBucket needComStash hsize = some L) (m : Memory L) (pSource : Nat → Byte)
    (c : Controller) {choose : List Nat → Nat × Block L.bytes} (hchoose : ∀ seen, c.block L (choose seen).1 < L.nBlock)
    (n : Nat) :
    (PMF.uniformOfFintype ((Fin L.nBlock → U32) × List.Vector U32 n)).map (fun t =>
        c.watch choose (Init_OCU L m pSource fun j => if hj : j < L.nBlock then randInt (t.1 ⟨j, hj⟩) else 0).1 []
          (t.2.toList.map randInt)) =
      (PMF.uniformOfFintype (List.Vector (Fin L.nLeaf) n)).map fun v => v.toList.map Fin.val := by
  obtain ⟨hlevel, -⟩ := layoutOf_level h
  have hn : L.nBlock ≤ 65536 := (nBlock_lt_dummy hlevel).le.trans (by decide)
  have hwatch : ∀ t : (Fin L.nBlock → U32) × List.Vector U32 n,
      c.watch choose (Init_OCU L m pSource fun j => if hj : j < L.nBlock then randInt (t.1 ⟨j, hj⟩) else 0).1 []
          (t.2.toList.map randInt) =
        ((reveal (chosen c hchoose) (fun b => (randEquiv L (t.1 b)).1) []
          (t.2.toList.map fun r => (randEquiv L r).1)).1).map Fin.val := by
    intro t
    rw [Init_OCU_eq m pSource _ hlevel]
    refine (watch_eq c hn hchoose _ _ (fun b => (randEquiv L (t.1 b)).1) (fun b => ?_) []).trans ?_
    · dsimp only
      rw [if_pos b.isLt, dif_pos b.isLt, randEquiv_fst]
      rfl
    · simp only [List.map_map, randEquiv_fst]
      rfl
  calc (PMF.uniformOfFintype ((Fin L.nBlock → U32) × List.Vector U32 n)).map _
      = (PMF.uniformOfFintype ((Fin L.nBlock → U32) × List.Vector U32 n)).map ((List.map Fin.val) ∘ fun t =>
          (reveal (chosen c hchoose) (fun b => (randEquiv L (t.1 b)).1) []
            (t.2.toList.map fun r => (randEquiv L r).1)).1) := congrArg (PMF.map · _) (funext hwatch)
    _ = (PMF.uniformOfFintype (List.Vector (Fin L.nLeaf) n)).map fun v => v.toList.map Fin.val := by
      rw [← PMF.map_comp, map_reveal (chosen c hchoose) (randEquiv L) n, PMF.map_comp]
      rfl

/-! ## Two blocks -/

def zigzag (seen : List Nat) : Nat × Block (small 1 2).bytes := (if seen.sum % 2 = 0 then 0 else 12, ⟨0, 0, fun _ => 0⟩)

theorem zigzag_lt (seen : List Nat) : Controller.OAccess.block (small 1 2) (zigzag seen).1 < 2 := by
  unfold zigzag
  split <;> decide

theorem leaves_uniform_small :
    (PMF.uniformOfFintype ((Fin 2 → U32) × List.Vector U32 3)).map (fun t => Controller.OAccess.watch zigzag
        (Init_OCU (small 1 2) (zeroMemory _) (fun k => toByte k) fun j => if hj : j < 2 then randInt (t.1 ⟨j, hj⟩) else 0).1
        [] (t.2.toList.map randInt)) =
      (PMF.uniformOfFintype (List.Vector (Fin (small 1 2).nLeaf) 3)).map fun v => v.toList.map Fin.val :=
  leaves_uniform (layoutOf_small 1) (zeroMemory _) (fun k => toByte k) .OAccess zigzag_lt 3

end FOSketch.Oram
