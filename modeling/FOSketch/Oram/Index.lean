import FOSketch.Oram.Init

/-!
# From an index to a block

`Init_OCU` sets `nBlock` and `nRecord` for each type of sketch, and the callers of `access` and `OAccess` make their indices
from them: `BurstAccess` and `LinearAccess` scale a block number, `OAccessFID` hashes a flow id. Only for type `'C'` does
every index lie in a block, and in the same one for both accesses (`resolves_iff`): for `'L'` `nBlock` is never set, and for
`'T'` an index is the number of a block to `OAccess` and the number of a record to `access`.
-/

namespace FOSketch.Oram

/-! ## The callers -/

/-- The fields that turn an index into a block. -/
structure Indexing where
  sketchType : SketchType
  nBlock : Nat
  nRecord : Bid
  deriving DecidableEq

/-- `Init_OCU` up to the check of the level. -/
def indexingOf (sketchType : SketchType) (size_sk sizeBlock : Nat) : Option Indexing :=
  let nBlock := nBlockOf sketchType size_sk sizeBlock
  let elemSize := match sketchType with
    | .C | .L => 1
    | .T => sizeofItem
  let nRecord := toBid ((sizeBlock - 2 * sizeofBid) / elemSize)
  let level := Nat.log 2 nBlock
  if level < sizeofBid * 8 then some ⟨sketchType, nBlock, nRecord⟩ else none

inductive Construction where
  | C
  | T
  | L (w_sk sizeBl : Nat) (hw : 1 ≤ w_sk) (hsize : ∃ e, 4 ≤ e ∧ sizeBl = 2 ^ e)

def Construction.init : Construction → Option Indexing
  | .C => indexingOf .C CUSKETCH_MEM SIZE_BLOCK
  | .T => indexingOf .T ST_TABLE_MEM SIZE_BLOCK
  | .L w_sk sizeBl _ _ => indexingOf .L w_sk sizeBl

structure Hashes where
  stHash : U32 → U32
  cusHash : U32 → U32

namespace Indexing

def scale (F : Indexing) : Nat :=
  match F.sketchType with
  | .T => 1
  | .C | .L => F.nRecord.val

/-- The index of `BurstAccess`; the modulus must not be zero. -/
def BurstAccess (F : Indexing) (rand : Int) : Option Nat :=
  if F.nBlock * F.scale = 0 then none else some (toSize rand % (F.nBlock * F.scale))

def LinearAccess (F : Indexing) (repeats : U32) : List Nat :=
  let repts := if repeats.val < F.nBlock then repeats.val else F.nBlock
  (List.range repts).map fun i => i * F.scale

def OAccessFID (hash : Hashes) (F : Indexing) (flowID : U32) : Nat :=
  match F.sketchType with
  | .T => (hash.stHash flowID).val % ST_BUCKET_NUM
  | .C | .L => (hash.cusHash flowID).val % CUSKETCH_MEM

def access (F : Indexing) (index : Nat) : Nat := index / F.nRecord.val

def OAccess (F : Indexing) (index : Nat) : Bid :=
  match F.sketchType with
  | .T => toBid index
  | .C | .L => toBid (index / F.nRecord.val)

inductive Generated (hash : Hashes) (F : Indexing) : Nat → Prop
  | burst (rand : Int) (index : Nat) (h : F.BurstAccess rand = some index) : Generated hash F index
  | linear (repeats : U32) (index : Nat) (h : index ∈ F.LinearAccess repeats) : Generated hash F index
  | fid (flowID : U32) : Generated hash F (F.OAccessFID hash flowID)

/-- Every index is that of a block, for both accesses the same, and nothing is divided by zero. -/
structure Resolves (hash : Hashes) (F : Indexing) : Prop where
  modulus : ∀ rand, F.BurstAccess rand ≠ none
  divisor : F.nRecord ≠ 0
  access_lt : ∀ index, Generated hash F index → F.access index < F.nBlock
  OAccess_lt : ∀ index, Generated hash F index → (F.OAccess index).val < F.nBlock
  same : ∀ index, Generated hash F index → F.access index = (F.OAccess index).val

end Indexing

/-- The layout of a sketch has these fields, and `block` is what `OAccess` computes. -/
theorem indexingOf_layoutOf {sketchType : SketchType} {size_sk sizeBlock sizeBucket : Nat} {needComStash : Bool}
    {hsize : ∃ e, 4 ≤ e ∧ e ≤ 15 ∧ sizeBlock = 2 ^ e} {L : Layout}
    (h : layoutOf sketchType size_sk sizeBlock sizeBucket needComStash hsize = some L) :
    ∃ F, indexingOf sketchType size_sk sizeBlock = some F ∧ F.nBlock = L.nBlock ∧
      ∀ index, F.OAccess index = toBid (L.block index) := by
  unfold layoutOf at h
  dsimp only at h
  split_ifs at h with hlevel
  obtain rfl := Option.some.inj h
  refine ⟨_, if_pos hlevel, rfl, fun index => ?_⟩
  obtain ⟨e, -, he, hpow⟩ := hsize
  have hle : sizeBlock ≤ 32768 := hpow ▸ Nat.pow_le_pow_right (by decide) he
  have hrecord : (sizeBlock - 2 * sizeofBid) / 1 < 65536 := by
    rw [Nat.div_one]
    show sizeBlock - 4 < 65536
    omega
  cases sketchType with
  | T => rfl
  | C | L =>
    show toBid (index / ((sizeBlock - 2 * sizeofBid) / 1 % 65536)) = toBid (index / ((sizeBlock - 2 * sizeofBid) / 1))
    rw [Nat.mod_eq_of_lt hrecord]

/-! ## The three types -/

theorem init_C : Construction.C.init = some ⟨.C, 7680, 60⟩ := by decide +kernel

theorem init_T : Construction.T.init = some ⟨.T, 4096, 7⟩ := by decide +kernel

theorem nBlock_L {w_sk sizeBl : Nat} {F : Indexing} (h : indexingOf .L w_sk sizeBl = some F) :
    F.sketchType = .L ∧ F.nBlock = 0 := by
  unfold indexingOf at h
  dsimp only at h
  split_ifs at h
  obtain rfl := Option.some.inj h
  exact ⟨rfl, rfl⟩

theorem generated_C {hash : Hashes} {index : Nat} (h : Indexing.Generated hash ⟨.C, 7680, 60⟩ index) : index < 460800 := by
  cases h with
  | burst rand _ h =>
    have hindex : toSize rand % 460800 = index := Option.some.inj h
    rw [← hindex]
    exact Nat.mod_lt _ (by decide)
  | linear repeats _ h =>
    obtain ⟨i, hi, rfl⟩ := List.mem_map.mp h
    have hlt : i < if repeats.val < 7680 then repeats.val else 7680 := List.mem_range.mp hi
    have hle : i < 7680 := by
      split_ifs at hlt with hr
      · exact hlt.trans hr
      · exact hlt
    show i * 60 < 460800
    omega
  | fid flowID => exact Nat.mod_lt _ (by decide)

theorem resolves_C (hash : Hashes) : Indexing.Resolves hash ⟨.C, 7680, 60⟩ := by
  have hblock : ∀ index < 460800, (toBid (index / 60)).val = index / 60 := by
    intro index h
    exact Nat.mod_eq_of_lt (by omega)
  refine ⟨fun rand h => ?_, by decide, fun index h => ?_, fun index h => ?_, fun index h => ?_⟩
  · exact absurd h (by simp [Indexing.BurstAccess, Indexing.scale])
  · have hlt := generated_C h
    show index / 60 < 7680
    omega
  · have hlt := generated_C h
    show (toBid (index / 60)).val < 7680
    rw [hblock index hlt]
    omega
  · exact (hblock index (generated_C h)).symm

/-- `BurstAccess` takes a remainder modulo `0`. -/
theorem not_resolves_L (hash : Hashes) {w_sk sizeBl : Nat} {F : Indexing} (h : indexingOf .L w_sk sizeBl = some F) :
    ¬F.Resolves hash := by
  intro hres
  apply hres.modulus 0
  rw [Indexing.BurstAccess, (nBlock_L h).2, Nat.zero_mul, if_pos rfl]

/-- Index `1`, which `LinearAccess` generates, is block `1` to `OAccess` and a record of block `0` to `access`. -/
theorem not_resolves_T (hash : Hashes) : ¬Indexing.Resolves hash ⟨.T, 4096, 7⟩ := by
  intro hres
  have hone : Indexing.Generated hash ⟨.T, 4096, 7⟩ 1 := .linear 2 1 (by decide)
  exact absurd (hres.same 1 hone) (by decide)

/-- **Every index resolves** exactly in sketches of type `'C'`. -/
theorem resolves_iff (hash : Hashes) {c : Construction} {F : Indexing} (h : c.init = some F) :
    F.Resolves hash ↔ F.sketchType = .C := by
  cases c with
  | C =>
    obtain rfl := Option.some.inj (init_C.symm.trans h)
    exact iff_of_true (resolves_C hash) rfl
  | T =>
    obtain rfl := Option.some.inj (init_T.symm.trans h)
    exact iff_of_false (not_resolves_T hash) (by decide)
  | L w_sk sizeBl =>
    refine iff_of_false (not_resolves_L hash h) ?_
    rw [(nBlock_L h).1]
    decide

/-- The sketch of the light part. -/
theorem resolves_iff_C :
    Indexing.Resolves ⟨id, id⟩ ⟨.C, 7680, 60⟩ ↔ (⟨.C, 7680, 60⟩ : Indexing).sketchType = .C :=
  resolves_iff (c := .C) _ (by decide +kernel)

/-- The stash table, and a sketch of any size in blocks of 64 bytes. -/
theorem resolves_fails :
    (∃ F, Construction.T.init = some F ∧ ¬F.Resolves ⟨id, id⟩) ∧
      ∃ F, (Construction.L 460800 64 (by decide) ⟨6, by decide, rfl⟩).init = some F ∧ ¬F.Resolves ⟨id, id⟩ := by
  have hL : indexingOf .L 460800 64 = some ⟨.L, 0, 60⟩ := by decide +kernel
  exact ⟨⟨_, init_T, not_resolves_T _⟩, ⟨_, hL, not_resolves_L _ hL⟩⟩

end FOSketch.Oram
