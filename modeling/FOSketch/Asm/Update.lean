import FOSketch.Asm.Lines
import FOSketch.Asm.Sorters
import FOSketch.Light.Refines

/-!
# The light-part update in memory

`OUpdateCUSketch_BEx` on bytes, with the log of its accesses, and what each of its loops does to memory and shows. The one
branch that depends on data, in `OMaxSetMemCL`, loads the line again that was loaded last (`maxSet_logs`), so that a loop
under `OMax` shows the same lines for all data (`omax_logs`).
-/

namespace FOSketch.Asm

open Memory

/-! ## The program -/

/-- Where the arrays and the local variables of the update lie; `tmp` is the local array of the exchanges. -/
structure Places where
  pLight : Nat
  pHeavy : Nat
  dump : Nat
  tmpB : Nat
  tmp : Nat

/-- The bytes from `&cond` on. -/
def cell (cond : Byte) (pad : Nat → Byte) : Nat → Byte := fun k => if k = 0 then cond else pad k

def maxSet (px py : Nat) (stack : Nat → Byte) : Logged → Logged :=
  asm ⟨fun k => if k = 0 then px else py, fun _ => load stack 0 4⟩
    (combine ++ .je (.L 6) :: (reload ++ .label (.L 6) :: writeBack))

/-- A turn of a loop under `OMax` over the blocks from `p` on; the state is `cond` and the machine. -/
def omaxTurn (p tmpB : Nat) (pad : Nat → Nat → Byte) (s : Byte × Logged) (i : Nat) : Byte × Logged :=
  let t := maxSet (p + i * 64) tmpB (cell s.1 (pad i)) s.2
  let cond := decide ((blockAt t.m.mem (p + i * 64)).blockID < (blockAt t.m.mem (p + (i + 1) * 64)).blockID)
  let t := (t.read (p + (i + 1) * 64) 2).read (p + i * 64) 2
  let blockID := OMove (blockAt t.m.mem (p + i * 64)).blockID DUMMY_FLAG cond
  (if cond then 1 else 0, (t.read (p + i * 64) 2).write (p + i * 64) (bidBytes blockID))

/-- A loop under `OMax` over `num` blocks, with the call behind it. -/
def omax (p tmpB : Nat) (pad : Nat → Nat → Byte) (num : Nat) (t : Logged) : Logged :=
  let s := (List.range (num - 1)).foldl (omaxTurn p tmpB pad) (1, t)
  maxSet (p + (num - 1) * 64) tmpB (cell s.1 (pad (num - 1))) s.2

/-- `oeBlockASC.sort` or `bsBlockASC.sort`. -/
def sortASC (A : Arr) (isPo2 : Bool) (num : Nat) : Logged → Option Logged :=
  if isPo2 then OddEvenMergeSorter.sort A num else BitonicSorter.sort A num

/-- `oeBlockASC.merge` or `bsBlockASC.merge`. -/
def mergeASC (A : Arr) (isPo2 : Bool) (num : Nat) : Logged → Option Logged :=
  if isPo2 then OddEvenMergeSorter.merge A num else BitonicSorter.merge A num

def blockOf (l : List Byte) : Block64 := blockAt (fun k => l.getD k 0) 0

namespace Places
variable (P : Places)

/-- The blocks from `p` on, to be sorted. -/
def blockArr (p : Nat) : Arr := ⟨p, 64, P.tmp, fun pi pj => greater_SP (blockOf pi) (blockOf pj)⟩

def lightTurn (i : Nat) (t : Logged) : Logged :=
  (t.write (P.dump + i * 64) (bidBytes (toBid i))).memcpy (P.dump + i * 64 + 4) (P.pLight + i * nRecord) nRecord

def dummyTurn (dump2 i : Nat) (t : Logged) : Logged := t.write (dump2 + i * 64) (bidBytes DUMMY_FLAG)

def heavyTurn (hash : U32 → U32) (numLight dump2 i : Nat) (t : Logged) : Logged :=
  let cid := (hash (wordAt t.m.mem (P.pHeavy + i * 8))).val % numLight
  let t := (t.read (P.pHeavy + i * 8) 4).write (dump2 + i * 64) (bidBytes (toBid (cid / nRecord)))
  let cidx := cid % nRecord
  let cnt := wordAt t.m.mem (P.pHeavy + i * 8 + 4)
  let t := t.read (P.pHeavy + i * 8 + 4) 4
  let cnt := OMove 255 cnt (decide (255 < cnt))
  (List.range nRecord).foldl
    (fun t j => t.write (dump2 + i * 64 + 4 + j) [OMove (toByte cnt.val) 0 (decide (j = cidx))]) t

def copyTurn (i : Nat) (t : Logged) : Logged := t.memcpy (P.pLight + i * nRecord) (P.dump + i * 64 + 4) nRecord

/-- The loops that fill `dump`. -/
def fill (hash : U32 → U32) (numLight numHeavy : Nat) (t : Logged) : Logged :=
  let num1Block := numLight / nRecord
  let dump2 := P.dump + num1Block * 64
  let is := if testPo2 num1Block then List.range num1Block else (List.range num1Block).reverse
  let t := is.foldl (fun t i => P.lightTurn i t) t
  let t := (List.range' numHeavy (num1Block - numHeavy)).foldl (fun t i => dummyTurn dump2 i t) t
  (List.range numHeavy).foldl (fun t i => P.heavyTurn hash numLight dump2 i t) t

/-- `OUpdateCUSketch_BEx`; `pad` is what lies behind `cond` at each call of `OMaxSetMemCL` in the first loop, and `pad'` in
the second. `none` if the bound of such a loop wraps around. -/
def OUpdateCUSketch_BEx (hash : U32 → U32) (pad pad' : Nat → Nat → Byte) (numLight numHeavy : Nat) (t : Logged) :
    Option Logged :=
  let numEBlock := numLight / nRecord
  let num1Block := numEBlock
  let num2Block := if num1Block < numHeavy then numHeavy else num1Block
  let isLightPo2 := testPo2 numEBlock
  let isHeavyPo2 := testPo2 num2Block
  let dump2 := P.dump + num1Block * 64
  if numHeavy = 0 ∨ numEBlock = 0 then none
  else do
    let t ← sortASC (P.blockArr dump2) isHeavyPo2 num2Block (P.fill hash numLight numHeavy t)
    let t ← sortASC (P.blockArr dump2) isHeavyPo2 num2Block (omax dump2 P.tmpB pad numHeavy t)
    let t ← mergeASC (P.blockArr P.dump) isLightPo2 (num1Block * 2) t
    let t ← sortASC (P.blockArr P.dump) isLightPo2 (num1Block * 2) (omax P.dump P.tmpB pad' (numEBlock * 2) t)
    some ((List.range numEBlock).foldl (fun t i => P.copyTurn i t) t)

end Places

/-! ## `OMaxSetMemCL` and its log -/

/-- The accesses, without the second load of `px`. -/
def maxSetAccesses (px py : Nat) : List Access :=
  [.read py 32, .read (py + 32) 32, .read px 32, .read (px + 32) 32, .write py 32, .write (py + 32) 32, .write px 32,
    .write (px + 32) 32]

theorem maxSet_m (px py : Nat) (stack : Nat → Byte) (t : Logged) :
    (maxSet px py stack t).m = OMaxSetMemCL px py stack t.m := by
  unfold maxSet asm OMaxSetMemCL
  rfl

/-- If `px` is loaded again, its line was the last that was loaded. -/
theorem maxSet_logs {px : Nat} (hpx : px % 64 = 0) (py : Nat) (stack : Nat → Byte) (t : Logged) :
    Logs t (maxSet px py stack t) (maxSetAccesses px py) := by
  let args : Operands Byte := ⟨fun k => if k = 0 then px else py, fun _ => load stack 0 4⟩
  have hcombine : accesses args combine (none, t.m) =
      [.read py 32, .read (py + 32) 32, .read px 32, .read (px + 32) 32] := by
    simp [accesses, turnAccess, turn, step, combine, args, toNat_add_32]
  have hstate : combine.foldl (turn args) (none, t.m) = (none, run args combine t.m) := foldl_turn_straight args rfl t.m
  obtain ⟨hr14, -⟩ := run_combine args t.m
  have hr14' : (run args combine t.m).r14 = px + 32 := hr14
  refine ⟨accesses args (combine ++ .je (.L 6) :: (reload ++ .label (.L 6) :: writeBack)) (none, t.m), rfl, ?_⟩
  rw [accesses_append, hcombine, hstate]
  generalize run args combine t.m = m at hr14'
  have hend (m : Machine Byte) : accesses args writeBack (none, m) =
      [.write py 32, .write (py + 32) 32, .write px 32, .write (px + 32) 32] := by
    simp [accesses, turnAccess, turn, step, writeBack, args, toNat_add_32]
  cases hzf : m.zf with
  | true =>
    have hskip : accesses args (.je (.L 6) :: (reload ++ .label (.L 6) :: writeBack)) (none, m) =
        accesses args writeBack (none, m) := by
      simp [accesses, turnAccess, turn, reload, hzf]
    rw [hskip, hend]
    exact .refl _
  | false =>
    obtain ⟨m', hm'⟩ : ∃ m', m' = run args reload m := ⟨_, rfl⟩
    have hagain : accesses args (.je (.L 6) :: (reload ++ .label (.L 6) :: writeBack)) (none, m) =
        [.read (px + 32) 32, .read px 32] ++ accesses args writeBack (none, m') := by
      subst hm'
      simp [accesses, turnAccess, turn, step, reload, hzf, hr14']
    obtain ⟨line, rfl⟩ : ∃ line, px = line * 64 := ⟨px / 64, by omega⟩
    obtain ⟨hlow, -⟩ := @lines_within line 0 32 (by decide) (by decide)
    obtain ⟨hhigh, -⟩ := @lines_within line 32 32 (by decide) (by decide)
    rw [Nat.add_zero] at hlow
    rw [hagain, hend]
    simp only [maxSetAccesses, List.flatMap_cons, List.flatMap_nil, hlow, hhigh, List.cons_append, List.nil_append]
    exact (Stutters.refl _).append ((Stutters.refl _).append (.again _ (.again _ (.refl _))))

/-! ## The loops under `OMax` -/

/-- The bytes behind `cond` are zero at every call. -/
def Clean (pad : Nat → Nat → Byte) : Prop := ∀ i, pad i 1 = 0 ∧ pad i 2 = 0 ∧ pad i 3 = 0

def condByte (cond : Bool) : Byte := if cond then 1 else 0

theorem word_cell (cond : Bool) {pad : Nat → Byte} (hpad : pad 1 = 0 ∧ pad 2 = 0 ∧ pad 3 = 0) :
    (∀ b ∈ load (cell (condByte cond) pad) 0 4, b = 0) ↔ cond = false := by
  have hrest : cell (condByte cond) pad 1 = 0 ∧ cell (condByte cond) pad 2 = 0 ∧ cell (condByte cond) pad 3 = 0 := hpad
  rw [word_eq_zero_iff]
  refine ⟨fun h => ?_, fun h => ⟨?_, hrest⟩⟩
  · cases cond with
    | false => rfl
    | true => exact absurd (show (1 : Byte) = 0 from h.1) (by decide)
  · rw [h]
    rfl

theorem maxSet_block {px py : Nat} (h : px + 64 ≤ py ∨ py + 64 ≤ px) {pad : Nat → Byte}
    (hpad : pad 1 = 0 ∧ pad 2 = 0 ∧ pad 3 = 0) (cond : Bool) (t : Logged) {p : Nat} (hp : p = px ∨ p = py) :
    blockAt (maxSet px py (cell (condByte cond) pad) t).m.mem p =
      FOSketch.OMaxSetMemCL (blockAt t.m.mem px) (blockAt t.m.mem py) cond := by
  rw [maxSet_m, blockAt_OMaxSetMemCL (.inr h) hp]
  simp only [word_cell cond hpad]
  cases cond <;> rfl

theorem maxSet_frame {px py : Nat} (stack : Nat → Byte) (t : Logged) {k : Nat} (hx : k < px ∨ px + 64 ≤ k)
    (hy : k < py ∨ py + 64 ≤ k) : (maxSet px py stack t).m.mem k = t.m.mem k := by
  have hmem := OMaxSetMemCL_mem px py stack t.m
  dsimp only at hmem
  rw [maxSet_m, hmem]
  split_ifs
  · rw [store_of_outside (by simpa), store_of_outside (by simpa)]
  · rw [store_of_outside (by simpa), store_of_outside (by simpa)]

section Omax
variable {p tmpB num : Nat} {pad : Nat → Nat → Byte} (hap : tmpB + 64 ≤ p ∨ p + num * 64 ≤ tmpB)
include hap

/-- One turn: the block and `tmpB` become the maximum, the block an id of its own or none, and `cond` tells which. -/
theorem omaxTurn_spec (hpad : Clean pad) {s : Nat} (hs : s + 1 < num) (cond : Bool) (t : Logged) :
    let b := FOSketch.OMaxSetMemCL (blockAt t.m.mem (p + s * 64)) (blockAt t.m.mem tmpB) cond
    let cond' := decide (b.blockID < (blockAt t.m.mem (p + (s + 1) * 64)).blockID)
    ∃ t', omaxTurn p tmpB pad (condByte cond, t) s = (condByte cond', t') ∧
      blockAt t'.m.mem (p + s * 64) = { b with blockID := OMove b.blockID DUMMY_FLAG cond' } ∧
      blockAt t'.m.mem tmpB = b ∧
      ∀ k, (k < p + s * 64 ∨ p + s * 64 + 64 ≤ k) → (k < tmpB ∨ tmpB + 64 ≤ k) → t'.m.mem k = t.m.mem k := by
  intro b cond'
  have hlines : p + s * 64 + 64 ≤ tmpB ∨ tmpB + 64 ≤ p + s * 64 := by omega
  obtain ⟨t₁, ht₁⟩ : ∃ t₁, maxSet (p + s * 64) tmpB (cell (condByte cond) (pad s)) t = t₁ := ⟨_, rfl⟩
  have hblock : blockAt t₁.m.mem (p + s * 64) = b := ht₁ ▸ maxSet_block hlines (hpad s) cond t (.inl rfl)
  have htmpB : blockAt t₁.m.mem tmpB = b := ht₁ ▸ maxSet_block hlines (hpad s) cond t (.inr rfl)
  have hframe : ∀ k, (k < p + s * 64 ∨ p + s * 64 + 64 ≤ k) → (k < tmpB ∨ tmpB + 64 ≤ k) → t₁.m.mem k = t.m.mem k :=
    fun k hk hk' => ht₁ ▸ maxSet_frame _ t hk hk'
  have hnext : blockAt t₁.m.mem (p + (s + 1) * 64) = blockAt t.m.mem (p + (s + 1) * 64) :=
    blockAt_congr fun k hk => hframe _ (by omega) (by omega)
  obtain ⟨t₂, ht₂⟩ : ∃ t₂, (((t₁.read (p + (s + 1) * 64) 2).read (p + s * 64) 2).read (p + s * 64) 2).write (p + s * 64)
      (bidBytes (OMove b.blockID DUMMY_FLAG cond')) = t₂ := ⟨_, rfl⟩
  have hmem : t₂.m.mem = store t₁.m.mem (p + s * 64) (bidBytes (OMove b.blockID DUMMY_FLAG cond')) := by
    rw [← ht₂]
    rfl
  refine ⟨t₂, ?_, ?_, ?_, fun k hk hk' => ?_⟩
  · unfold omaxTurn
    simp only [ht₁, Logged.read, hblock, hnext]
    exact congrArg (Prod.mk (condByte cond')) ht₂
  · rw [hmem, blockAt_write_blockID, hblock]
  · rw [hmem]
    refine (blockAt_congr fun k hk => store_of_outside ?_).trans htmpB
    rw [length_bidBytes]
    omega
  · rw [hmem, ← hframe k hk hk']
    apply store_of_outside
    rw [length_bidBytes]
    omega

/-- The turns from `s` on and the last call are the loop on the list. -/
theorem omax_from (hpad : Clean pad) (n s : Nat) (hs : s + n < num) (cond : Bool) (t : Logged) :
    let r := (List.range' s n).foldl (omaxTurn p tmpB pad) (condByte cond, t)
    let t' := maxSet (p + (s + n) * 64) tmpB (cell r.1 (pad (s + n))) r.2
    blocks t'.m.mem (p + s * 64) (n + 1) =
        OMax (blocks t.m.mem (p + s * 64) (n + 1)) (blockAt t.m.mem tmpB) cond ∧
      blockAt t'.m.mem tmpB = blockAt t'.m.mem (p + (s + n) * 64) ∧
      ∀ k, (k < p + s * 64 ∨ p + (s + n + 1) * 64 ≤ k) → (k < tmpB ∨ tmpB + 64 ≤ k) → t'.m.mem k = t.m.mem k := by
  induction n generalizing s cond t with
  | zero =>
    intro r t'
    have hlines : p + (s + 0) * 64 + 64 ≤ tmpB ∨ tmpB + 64 ≤ p + (s + 0) * 64 := by omega
    have hx : blockAt t'.m.mem (p + (s + 0) * 64) = _ := maxSet_block hlines (hpad (s + 0)) cond t (.inl rfl)
    have hy : blockAt t'.m.mem tmpB = _ := maxSet_block hlines (hpad (s + 0)) cond t (.inr rfl)
    refine ⟨?_, hy.trans hx.symm, fun k hk hk' => maxSet_frame _ t (by omega) hk'⟩
    simpa [blocks, OMax] using hx
  | succ n ih =>
    obtain ⟨t₁, hturn, hblock, htmpB, hframe⟩ := omaxTurn_spec hap hpad (show s + 1 < num by omega) cond t
    rw [List.range'_succ, List.foldl_cons, hturn, show s + (n + 1) = s + 1 + n by omega]
    intro r t'
    obtain ⟨hblocks, hlast, hrest⟩ := ih (s + 1) (by omega) _ t₁
    have hp : p + s * 64 + 64 = p + (s + 1) * 64 := by omega
    have hkept : blockAt t'.m.mem (p + s * 64) = blockAt t₁.m.mem (p + s * 64) :=
      blockAt_congr fun k hk => hrest _ (by omega) (by omega)
    have hbehind : blocks t₁.m.mem (p + (s + 1) * 64) (n + 1) = blocks t.m.mem (p + (s + 1) * 64) (n + 1) :=
      blocks_congr fun k hk hk' => hframe k (by omega) (by omega)
    refine ⟨?_, hlast, fun k hk hk' => (hrest k (by omega) hk').trans (hframe k (by omega) hk')⟩
    have hcons : blocks t.m.mem (p + (s + 1) * 64) (n + 1) = _ := blocks_cons _ _ _
    have hrec : blocks t'.m.mem (p + (s + 1) * 64) (n + 1) = _ := hblocks
    rw [blocks_cons t'.m.mem (p + s * 64), blocks_cons t.m.mem (p + s * 64), hp, hkept, hblock, hrec, hbehind, htmpB, hcons,
      OMax]

theorem omax_spec (hpad : Clean pad) {n : Nat} (h0 : 0 < n) (hn : n ≤ num) (t : Logged) :
    blocks (omax p tmpB pad n t).m.mem p n = OMax (blocks t.m.mem p n) (blockAt t.m.mem tmpB) true ∧
      blockAt (omax p tmpB pad n t).m.mem tmpB =
        (blocks (omax p tmpB pad n t).m.mem p n).getLastD (blockAt t.m.mem tmpB) ∧
      ∀ k, (k < p ∨ p + n * 64 ≤ k) → (k < tmpB ∨ tmpB + 64 ≤ k) → (omax p tmpB pad n t).m.mem k = t.m.mem k := by
  obtain ⟨m, rfl⟩ : ∃ m, n = m + 1 := ⟨n - 1, by omega⟩
  have hspec := omax_from hap hpad m 0 (by omega) true t
  simp only [Nat.zero_mul, Nat.add_zero, Nat.zero_add, ← List.range_eq_range'] at hspec
  obtain ⟨hblocks, hlast, hframe⟩ := hspec
  refine ⟨hblocks, hlast.trans ?_, hframe⟩
  have hend : blocks (omax p tmpB pad (m + 1) t).m.mem p (m + 1) = _ := blocks_add _ p m 1
  rw [hend, blocks_cons, show blocks _ _ 0 = [] from rfl, List.getLastD_concat]
  rfl

end Omax

def turnAccesses (p tmpB i : Nat) : List Access :=
  maxSetAccesses (p + i * 64) tmpB ++
    [.read (p + (i + 1) * 64) 2, .read (p + i * 64) 2, .read (p + i * 64) 2, .write (p + i * 64) 2]

def omaxAccesses (p tmpB num : Nat) : List Access :=
  (List.range (num - 1)).flatMap (turnAccesses p tmpB) ++ maxSetAccesses (p + (num - 1) * 64) tmpB

theorem omax_logs {p : Nat} (hp : p % 64 = 0) (tmpB : Nat) (pad : Nat → Nat → Byte) (num : Nat) (t : Logged) :
    Logs t (omax p tmpB pad num t) (omaxAccesses p tmpB num) := by
  have hturn (s : Byte × Logged) (i : Nat) : Logs s.2 (omaxTurn p tmpB pad s i).2 (turnAccesses p tmpB i) := by
    have hset := maxSet_logs (show (p + i * 64) % 64 = 0 by omega) tmpB (cell s.1 (pad i)) s.2
    refine hset.trans (.of_eq ?_)
    simp [omaxTurn, Logged.read, Logged.write, length_bidBytes]
  have hturns (is : List Nat) (s : Byte × Logged) :
      Logs s.2 (is.foldl (omaxTurn p tmpB pad) s).2 (is.flatMap (turnAccesses p tmpB)) := by
    induction is generalizing s with
    | nil => exact .refl _
    | cons i is ih =>
      rw [List.foldl_cons, List.flatMap_cons]
      exact (hturn s i).trans (ih _)
  exact (hturns _ (1, t)).trans (maxSet_logs (by omega) tmpB _ _)

/-! ## The loops that fill `dump` -/

theorem store_inside (dst : Nat → Byte) (d : Nat) {l : List Byte} {k : Nat} (hk : k < l.length) :
    store dst d l (d + k) = l[k] := by
  rw [store, if_pos (Nat.le_add_right d k), Nat.add_sub_cancel_left, List.getD_eq_getElem _ _ hk]

theorem foldl_write (q n : Nat) (v : Nat → Byte) (t : Logged) :
    let t' := (List.range n).foldl (fun t j => t.write (q + j) [v j]) t
    t'.m.mem = store t.m.mem q ((List.range n).map v) ∧
      t'.log = t.log ++ (List.range n).map fun j => .write (q + j) 1 := by
  induction n with
  | zero =>
    refine ⟨funext fun k => ?_, (List.append_nil _).symm⟩
    exact (store_of_outside (by rw [List.range_zero, List.map_nil, List.length_nil]; omega)).symm
  | succ n ih =>
    obtain ⟨hmem, hlog⟩ := ih
    rw [List.range_succ, List.foldl_append]
    constructor
    · have hstore := store_append t.m.mem q ((List.range n).map v) [v n]
      rw [List.length_map, List.length_range] at hstore
      rw [List.map_append]
      exact (congrArg (store · (q + n) [v n]) hmem).trans hstore
    · rw [List.map_append, ← List.append_assoc, ← hlog]
      rfl

namespace Places
variable (P : Places)

theorem turn_light {num : Nat} {pLight : Nat → Byte} (h : P.dump + num * 64 ≤ P.pLight ∨ P.pLight + num * 60 ≤ P.dump) :
    Turn P.dump num (fun mem => ∀ a < num * 60, mem (P.pLight + a) = pLight a) P.lightTurn (Light.lightBlock pLight)
      fun i => [.write (P.dump + i * 64) 2, .read (P.pLight + i * 60) 60, .write (P.dump + i * 64 + 4) 60] where
  block i hi t ht := by
    have hdata : ∀ j : Fin 60, (P.lightTurn i t).m.mem (P.dump + i * 64 + 4 + j.val) = pLight (i * 60 + j.val) := by
      intro j
      refine (copy_of_inside j.isLt).trans ?_
      have hid : store t.m.mem (P.dump + i * 64) (bidBytes (toBid i)) (P.pLight + i * 60 + j.val) =
          t.m.mem (P.pLight + i * 60 + j.val) := store_of_outside (by rw [length_bidBytes]; omega)
      refine hid.trans ?_
      rw [Nat.add_assoc]
      exact ht _ (by omega)
    have hout : ∀ k, k < P.dump + i * 64 + 4 →
        (P.lightTurn i t).m.mem k = store t.m.mem (P.dump + i * 64) (bidBytes (toBid i)) k :=
      fun k hk => copy_of_outside (.inl hk)
    rw [blockAt_write_data hdata hout, blockAt_write_blockID]
    rfl
  frame i hi t k hk :=
    (copy_of_outside (show k < P.dump + i * 64 + 4 ∨ P.dump + i * 64 + 4 + 60 ≤ k by omega)).trans
      (store_of_outside (by rw [length_bidBytes]; omega))
  log i hi t := by simp [lightTurn, Logged.write, Logged.memcpy, length_bidBytes]
  fixed hmem hout := fun a ha => (hout _ (by omega)).trans (hmem a ha)

theorem turn_dummy (dump2 num : Nat) :
    Turn dump2 num (fun _ => True) (dummyTurn dump2) (fun _ b => { b with blockID := DUMMY_FLAG })
      fun i => [.write (dump2 + i * 64) 2] where
  block i _ t _ := blockAt_write_blockID t.m.mem (dump2 + i * 64) DUMMY_FLAG
  frame i _ t k hk := store_of_outside (by rw [length_bidBytes]; omega)
  log i _ t := rfl
  fixed _ _ := trivial

def heavyAccesses (dump2 i : Nat) : List Access :=
  [.read (P.pHeavy + i * 8) 4, .write (dump2 + i * 64) 2, .read (P.pHeavy + i * 8 + 4) 4] ++
    (List.range 60).map fun j => .write (dump2 + i * 64 + 4 + j) 1

theorem heavyTurn_log (hash : U32 → U32) (numLight dump2 i : Nat) (t : Logged) :
    (P.heavyTurn hash numLight dump2 i t).log = t.log ++ P.heavyAccesses dump2 i := by
  unfold heavyTurn
  simp only [nRecord_eq, (foldl_write _ 60 _ _).2]
  simp only [Logged.read, Logged.write, heavyAccesses, length_bidBytes, List.append_assoc, List.cons_append,
    List.nil_append]

theorem heavyTurn_mem (hash : U32 → U32) (numLight dump2 i : Nat) {t : Logged} {item : Item}
    (hitem : itemAt t.m.mem (P.pHeavy + i * 8) = item)
    (hap : dump2 + i * 64 + 2 ≤ P.pHeavy + i * 8 ∨ P.pHeavy + i * 8 + 8 ≤ dump2 + i * 64) :
    (P.heavyTurn hash numLight dump2 i t).m.mem =
      store (store t.m.mem (dump2 + i * 64) (bidBytes (toBid ((hash item.flowID).val % numLight / 60))))
        (dump2 + i * 64 + 4) ((List.range 60).map fun j =>
          OMove (toByte (OMove 255 item.size (decide (255 < item.size))).val) 0
            (decide (j = (hash item.flowID).val % numLight % 60))) := by
  subst hitem
  have hsize (b : Bid) : wordAt (store t.m.mem (dump2 + i * 64) (bidBytes b)) (P.pHeavy + i * 8 + 4) =
      wordAt t.m.mem (P.pHeavy + i * 8 + 4) := by
    have hitem := itemAt_congr fun k (hk : k < 8) =>
      (store_of_outside (by rw [length_bidBytes]; omega) :
        store t.m.mem (dump2 + i * 64) (bidBytes b) (P.pHeavy + i * 8 + k) = t.m.mem (P.pHeavy + i * 8 + k))
    exact congrArg Item.size hitem
  unfold heavyTurn
  simp only [nRecord_eq, (foldl_write _ 60 _ _).1]
  simp only [Logged.read, Logged.write, hsize]
  rfl

theorem turn_heavy (hash : U32 → U32) (numLight : Nat) {dump2 num : Nat} {items : Nat → Item}
    (h : dump2 + num * 64 ≤ P.pHeavy ∨ P.pHeavy + num * 8 ≤ dump2) :
    Turn dump2 num (fun mem => ∀ i < num, itemAt mem (P.pHeavy + i * 8) = items i) (P.heavyTurn hash numLight dump2)
      (fun i b => heavyBlock hash numLight (items i) b) (P.heavyAccesses dump2) where
  block i hi t ht := by
    have hmem := P.heavyTurn_mem hash numLight dump2 i (ht i hi) (by omega)
    have hdata : ∀ j : Fin 60, (P.heavyTurn hash numLight dump2 i t).m.mem (dump2 + i * 64 + 4 + j.val) =
        OMove (toByte (OMove 255 (items i).size (decide (255 < (items i).size))).val) 0
          (decide (j.val = (hash (items i).flowID).val % numLight % 60)) := by
      intro j
      rw [hmem, store_inside _ _ (by rw [List.length_map, List.length_range]; exact j.isLt), List.getElem_map,
        List.getElem_range]
    have hout : ∀ k, k < dump2 + i * 64 + 4 → (P.heavyTurn hash numLight dump2 i t).m.mem k =
        store t.m.mem (dump2 + i * 64) (bidBytes (toBid ((hash (items i).flowID).val % numLight / 60))) k := by
      intro k hk
      rw [hmem]
      exact store_of_outside (.inl hk)
    rw [blockAt_write_data hdata hout, blockAt_write_blockID]
    rfl
  frame i hi t k hk := by
    rw [P.heavyTurn_mem hash numLight dump2 i rfl (by omega),
      store_of_outside (by rw [List.length_map, List.length_range]; omega),
      store_of_outside (by rw [length_bidBytes]; omega)]
  log i _ t := P.heavyTurn_log hash numLight dump2 i t
  fixed hmem hout := fun i hi => (itemAt_congr fun k hk => (hout _ (by omega))).trans (hmem i hi)

/-! ## The counters are copied back -/

theorem copyBack_spec {num : Nat} (h : P.dump + num * 64 ≤ P.pLight ∨ P.pLight + num * 60 ≤ P.dump) (n : Nat)
    (hn : n ≤ num) (t : Logged) :
    let t' := (List.range n).foldl (fun t i => P.copyTurn i t) t
    (∀ i < n, ∀ j < 60, t'.m.mem (P.pLight + i * 60 + j) = t.m.mem (P.dump + i * 64 + 4 + j)) ∧
      (∀ k, (k < P.pLight ∨ P.pLight + n * 60 ≤ k) → t'.m.mem k = t.m.mem k) ∧
      t'.log = t.log ++ (List.range n).flatMap fun i =>
        [.read (P.dump + i * 64 + 4) 60, .write (P.pLight + i * 60) 60] := by
  induction n with
  | zero => simp
  | succ n ih =>
    obtain ⟨hcopied, hframe, hlog⟩ := ih (by omega)
    rw [List.range_succ, List.foldl_append]
    generalize (List.range n).foldl (fun t i => P.copyTurn i t) t = t₁ at hcopied hframe hlog
    dsimp only [List.foldl_cons, List.foldl_nil]
    refine ⟨fun i hi j hj => ?_, fun k hk => ?_, ?_⟩
    · by_cases hin : i = n
      · subst hin
        exact (copy_of_inside hj).trans (hframe _ (by omega))
      · exact (copy_of_outside (show P.pLight + i * 60 + j < P.pLight + n * 60 ∨ _ from .inl (by omega))).trans
          (hcopied i (by omega) j hj)
    · exact (copy_of_outside (show k < P.pLight + n * 60 ∨ P.pLight + n * 60 + 60 ≤ k by omega)).trans (hframe k (by omega))
    · rw [List.flatMap_append, ← List.append_assoc, ← hlog]
      rfl

end Places

end FOSketch.Asm
