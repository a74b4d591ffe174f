import FOSketch.Asm.Update

/-!
# Runs of the light-part update in memory

The blocks of `dump` go through the same stages as the list of blocks of `FOSketch.OUpdateCUSketch_BEx`
(`OUpdateCUSketch_BEx_refines`), and what another process sees depends on the sizes and places of the arrays only
(`OUpdateCUSketch_BEx_oblivious`).

* `Reaches` : how far a run has come, that is the blocks, `tmpB` and the rest of memory;
* `fill_spec` : the loops that fill `dump`;
* `Reaches.sort`, `Reaches.omax` : the stages after that, to the loop that copies the counters back.
-/

namespace FOSketch.Asm

open Memory

/-! ## The stages in between -/

namespace Places
variable (P : Places)

/-- Blocks of the heavy items, at least as many as light ones. -/
def num2Block (numLight numHeavy : Nat) : Nat := if numLight / nRecord < numHeavy then numHeavy else numLight / nRecord

theorem num2Block_eq_max (numLight numHeavy : Nat) : num2Block numLight numHeavy = max (numLight / nRecord) numHeavy := by
  unfold num2Block
  split_ifs <;> omega

def numTBlock (numLight numHeavy : Nat) : Nat := numLight / nRecord + num2Block numLight numHeavy

/-- The arrays and the local variables do not overlap, and `dump` is aligned. -/
structure Valid (numLight numHeavy : Nat) : Prop where
  aligned : P.dump % 64 = 0
  apart : [(P.pLight, numLight), (P.pHeavy, numHeavy * 8), (P.dump, numTBlock numLight numHeavy * 64), (P.tmpB, 64),
    (P.tmp, 64)].Pairwise fun a b => a.1 + a.2 ≤ b.1 ∨ b.1 + b.2 ≤ a.1

/-- A byte of none of what the update writes before it copies the counters back. -/
def Away (total k : Nat) : Prop :=
  (k < P.dump ∨ P.dump + total * 64 ≤ k) ∧ (k < P.tmpB ∨ P.tmpB + 64 ≤ k) ∧ (k < P.tmp ∨ P.tmp + 64 ≤ k)

/-- A run from `t` has come to `t'`, with the blocks `l` and `b` in `tmpB`. -/
structure Reaches (total : Nat) (t t' : Logged) (l : List Block64) (b : Block64) : Prop where
  blocks : Asm.blocks t'.m.mem P.dump total = l
  tmpB : blockAt t'.m.mem P.tmpB = b
  frame : ∀ k, P.Away total k → t'.m.mem k = t.m.mem k

end Places

theorem blockOf_load (mem : Nat → Byte) (p : Nat) : blockOf (load mem p 64) = blockAt mem p := by
  refine blockAt_congr fun k hk => ?_
  rw [Nat.zero_add, List.getD_eq_getElem?_getD, getElem?_load _ _ hk, Option.getD_some]

/-- `f` succeeds, does `g` to the `num` blocks from `p` on and shows `log`; the rest of memory is as before, but for the
local array. -/
def Places.OnBlocks (P : Places) (p num : Nat) (f : Logged → Option Logged) (g : List Block64 → List Block64)
    (log : List Access) : Prop :=
  ∀ t, ∃ t', f t = some t' ∧ blocks t'.m.mem p num = g (blocks t.m.mem p num) ∧
    (∀ k, (k < p ∨ p + num * 64 ≤ k) → (k < P.tmp ∨ P.tmp + 64 ≤ k) → t'.m.mem k = t.m.mem k) ∧ t'.log = t.log ++ log

/-- What a routine does to the elements it does to the blocks. -/
theorem Places.onBlocks_of_runs {P : Places} {p num : Nat} {f : Logged → Option Logged}
    {g : List (List Byte) → List (List Byte)} {log : List Access} (h : (P.blockArr p).Runs num f g log)
    (g' : List Block64 → List Block64) (hg : ∀ l, (g l).map blockOf = g' (l.map blockOf)) : P.OnBlocks p num f g' log := by
  intro t
  have hmap (mem : Nat → Byte) : ((P.blockArr p).elements num mem).map blockOf = blocks mem p num := by
    rw [Arr.elements, List.map_map]
    exact List.map_congr_left fun k _ => blockOf_load mem _
  obtain ⟨t', ht, helements, hframe, hlog⟩ := h t
  refine ⟨t', ht, ?_, fun k hk hk' => hframe k ⟨hk, hk'⟩, hlog⟩
  rw [← hmap, helements, hg, hmap]

section Sorting

def sortAccesses (A : Arr) (isPo2 : Bool) (num : Nat) : List Access :=
  (if isPo2 then OddEvenMergeSorter.sortComparators num
    else Network.sortNet FOSketch.BitonicSorter.half true num num).flatMap A.comparatorAccesses

def mergeAccesses (A : Arr) (isPo2 : Bool) (num : Nat) : List Access :=
  (if isPo2 then OddEvenMergeSorter.mergeComparators num
    else Network.mergeNet FOSketch.BitonicSorter.half true num num).flatMap A.comparatorAccesses

variable {P : Places} {p num total : Nat} (h : P.tmp + 64 ≤ p ∨ p + total * 64 ≤ P.tmp) (hle : num ≤ total)
  (hmax : num ≤ 2 ^ 30) (isPo2 : Bool)
include h

theorem valid_blockArr : (P.blockArr p).Valid total :=
  ⟨.inr (.inr (.inr (show 0 < 64 ∧ 64 % 32 = 0 by decide))), show 64 < 65536 by decide, h⟩

include hle hmax

theorem sortASC_spec : P.OnBlocks p total (sortASC (P.blockArr p) isPo2 num)
    (FOSketch.sortASC greater_SP isPo2 · num) (sortAccesses (P.blockArr p) isPo2 num) := by
  cases isPo2 with
  | true =>
    exact Places.onBlocks_of_runs (OddEvenMergeSorter.runs_sort (valid_blockArr h) hle hmax) _ fun l =>
      FOSketch.OddEvenMergeSorter.sort_map blockOf _ greater_SP (fun _ _ => rfl) l num
  | false =>
    exact Places.onBlocks_of_runs (BitonicSorter.runs_sort (valid_blockArr h) hle hmax) _ fun l =>
      FOSketch.BitonicSorter.sort_map blockOf _ greater_SP (fun _ _ => rfl) l num

theorem mergeASC_spec : P.OnBlocks p total (mergeASC (P.blockArr p) isPo2 num)
    (FOSketch.mergeASC greater_SP isPo2 · num) (mergeAccesses (P.blockArr p) isPo2 num) := by
  cases isPo2 with
  | true =>
    exact Places.onBlocks_of_runs (OddEvenMergeSorter.runs_merge (valid_blockArr h) hle hmax) _ fun l =>
      FOSketch.OddEvenMergeSorter.merge_map blockOf _ greater_SP (fun _ _ => rfl) l num
  | false =>
    exact Places.onBlocks_of_runs (BitonicSorter.runs_merge (valid_blockArr h) hle hmax) _ fun l =>
      FOSketch.BitonicSorter.merge_map blockOf _ greater_SP (fun _ _ => rfl) l num

end Sorting

namespace Places

section Stages
variable {P : Places} {total : Nat} {t t₁ : Logged} {l : List Block64} {b : Block64} (h : P.Reaches total t t₁ l b)
  (hdump : P.dump + total * 64 ≤ P.tmpB ∨ P.tmpB + 64 ≤ P.dump)

include h hdump

theorem Reaches.sort (htmp : P.dump + total * 64 ≤ P.tmp ∨ P.tmp + 64 ≤ P.dump)
    (htmpB : P.tmpB + 64 ≤ P.tmp ∨ P.tmp + 64 ≤ P.tmpB) {a : Nat} (ha : a ≤ total) {f : Logged → Option Logged}
    {g : List Block64 → List Block64} {log : List Access} (hf : P.OnBlocks (P.dump + a * 64) (total - a) f g log) :
    ∃ t₂, f t₁ = some t₂ ∧ P.Reaches total t t₂ (l.take a ++ g (l.drop a)) b := by
  obtain ⟨t₂, hrun, hblocks, hframe, -⟩ := hf t₁
  refine ⟨t₂, hrun, ?_, ?_, fun k hk => ?_⟩
  · have hfirst : Asm.blocks t₂.m.mem P.dump a = Asm.blocks t₁.m.mem P.dump a :=
      blocks_congr fun k hk hk' => hframe k (by omega) (by omega)
    have hsplit := blocks_add t₂.m.mem P.dump a (total - a)
    rw [Nat.add_sub_cancel' ha] at hsplit
    rw [hsplit, hfirst, hblocks, ← h.blocks, blocks_take _ _ ha, blocks_drop _ _ ha]
  · rw [← h.tmpB]
    exact blockAt_congr fun k hk => hframe _ (by omega) (by omega)
  · have hd := hk.1
    rw [hframe k (by omega) hk.2.2, h.frame k hk]

theorem Reaches.omax {pad : Nat → Nat → Byte} (hpad : Clean pad) {a n : Nat} (h0 : 0 < n) (hn : a + n ≤ total) :
    P.Reaches total t (Asm.omax (P.dump + a * 64) P.tmpB pad n t₁)
      (l.take a ++ (OMax ((l.drop a).take n) b true ++ (l.drop a).drop n))
      ((OMax ((l.drop a).take n) b true).getLastD b) := by
  have hap : P.tmpB + 64 ≤ P.dump + a * 64 ∨ P.dump + a * 64 + (total - a) * 64 ≤ P.tmpB := by omega
  obtain ⟨hblocks, hlast, hframe⟩ := omax_spec hap hpad h0 (show n ≤ total - a by omega) t₁
  have htaken : (l.drop a).take n = Asm.blocks t₁.m.mem (P.dump + a * 64) n := by
    rw [← h.blocks, blocks_drop _ _ (by omega), blocks_take _ _ (by omega)]
  rw [htaken]
  rw [h.tmpB] at hblocks hlast
  refine ⟨?_, by rw [hlast, hblocks], fun k hk => ?_⟩
  · have hfirst : Asm.blocks (Asm.omax (P.dump + a * 64) P.tmpB pad n t₁).m.mem P.dump a = l.take a := by
      rw [← h.blocks, blocks_take _ _ (by omega)]
      exact blocks_congr fun k hk hk' => hframe k (by omega) (by omega)
    have hrest : Asm.blocks (Asm.omax (P.dump + a * 64) P.tmpB pad n t₁).m.mem (P.dump + a * 64 + n * 64) (total - a - n) =
        (l.drop a).drop n := by
      rw [← h.blocks, blocks_drop _ _ (by omega), blocks_drop _ _ (by omega)]
      exact blocks_congr fun k hk hk' => hframe k (by omega) (by omega)
    have hsplit := blocks_add (Asm.omax (P.dump + a * 64) P.tmpB pad n t₁).m.mem P.dump a (n + (total - a - n))
    rw [blocks_add _ (P.dump + a * 64), hfirst, hblocks, hrest, show a + (n + (total - a - n)) = total by omega] at hsplit
    exact hsplit
  · have hd := hk.1
    rw [hframe k (by omega) hk.2.1, h.frame k hk]

/-- A routine, the loop under `OMax` over `n` blocks and another routine, on the blocks from `a` on. -/
theorem Reaches.pass (htmp : P.dump + total * 64 ≤ P.tmp ∨ P.tmp + 64 ≤ P.dump)
    (htmpB : P.tmpB + 64 ≤ P.tmp ∨ P.tmp + 64 ≤ P.tmpB) {pad : Nat → Nat → Byte} (hpad : Clean pad) {a n : Nat} (h0 : 0 < n)
    (hn : a + n ≤ total) {f f' : Logged → Option Logged} {g g' : List Block64 → List Block64} {log log' : List Access}
    (hf : P.OnBlocks (P.dump + a * 64) (total - a) f g log) (hf' : P.OnBlocks (P.dump + a * 64) (total - a) f' g' log') :
    let l' := g (l.drop a)
    let l'' := OMax (l'.take n) b true
    ∃ t₂ t₃, f t₁ = some t₂ ∧ f' (Asm.omax (P.dump + a * 64) P.tmpB pad n t₂) = some t₃ ∧
      P.Reaches total t t₃ (l.take a ++ g' (l'' ++ l'.drop n)) (l''.getLastD b) := by
  intro l' l''
  have hlen : (l.take a).length = a := by
    rw [← h.blocks, List.length_take, length_blocks]
    omega
  obtain ⟨t₂, hrun, hreach⟩ := h.sort hdump htmp htmpB (by omega) hf
  have hmax := hreach.omax hdump hpad h0 hn
  rw [List.take_left' hlen, List.drop_left' hlen] at hmax
  obtain ⟨t₃, hrun', hreach'⟩ := hmax.sort hdump htmp htmpB (by omega) hf'
  rw [List.take_left' hlen, List.drop_left' hlen] at hreach'
  exact ⟨t₂, t₃, hrun, hrun', hreach'⟩

end Stages

/-- What such a pass shows, whatever lies behind `cond`. -/
theorem pass_logs {P : Places} {p total : Nat} (hp : p % 64 = 0) {f f' : Logged → Option Logged}
    {g g' : List Block64 → List Block64} {log log' : List Access} (hf : P.OnBlocks p total f g log)
    (hf' : P.OnBlocks p total f' g' log') (pad : Nat → Nat → Byte) (n : Nat) (t : Logged) :
    ∃ t₁ t₂, f t = some t₁ ∧ f' (Asm.omax p P.tmpB pad n t₁) = some t₂ ∧
      Logs t t₂ (log ++ (omaxAccesses p P.tmpB n ++ log')) := by
  obtain ⟨t₁, hrun, -, -, hlog⟩ := hf t
  obtain ⟨t₂, hrun', -, -, hlog'⟩ := hf' (Asm.omax p P.tmpB pad n t₁)
  exact ⟨t₁, t₂, hrun, hrun', (Logs.of_eq hlog).trans ((omax_logs hp P.tmpB pad n t₁).trans (.of_eq hlog'))⟩

section Fill
variable {P : Places} {numLight numHeavy : Nat}

theorem Valid.regions (hv : P.Valid numLight numHeavy) :
    (P.pLight + numLight ≤ P.dump ∨ P.dump + numTBlock numLight numHeavy * 64 ≤ P.pLight) ∧
    (P.pLight + numLight ≤ P.tmpB ∨ P.tmpB + 64 ≤ P.pLight) ∧ (P.pLight + numLight ≤ P.tmp ∨ P.tmp + 64 ≤ P.pLight) ∧
    (P.pHeavy + numHeavy * 8 ≤ P.dump ∨ P.dump + numTBlock numLight numHeavy * 64 ≤ P.pHeavy) ∧
    (P.dump + numTBlock numLight numHeavy * 64 ≤ P.tmpB ∨ P.tmpB + 64 ≤ P.dump) ∧
    (P.dump + numTBlock numLight numHeavy * 64 ≤ P.tmp ∨ P.tmp + 64 ≤ P.dump) ∧
    (P.tmpB + 64 ≤ P.tmp ∨ P.tmp + 64 ≤ P.tmpB) := by
  have hap := hv.apart
  simp only [List.pairwise_cons, List.mem_cons, List.not_mem_nil, or_false, forall_eq_or_imp, forall_eq] at hap
  obtain ⟨⟨-, h1, h2, h3⟩, ⟨h4, -, -⟩, ⟨h5, h6⟩, h7, -⟩ := hap
  exact ⟨h1, h2, h3, h4, h5, h6, h7⟩

def fillAccesses (P : Places) (numLight numHeavy : Nat) : List Access :=
  let num1Block := numLight / nRecord
  let dump2 := P.dump + num1Block * 64
  (if testPo2 num1Block then List.range num1Block else (List.range num1Block).reverse).flatMap (fun i =>
      [.write (P.dump + i * 64) 2, .read (P.pLight + i * 60) 60, .write (P.dump + i * 64 + 4) 60]) ++
    (List.range' numHeavy (num1Block - numHeavy)).flatMap (fun i => [.write (dump2 + i * 64) 2]) ++
    (List.range numHeavy).flatMap (P.heavyAccesses dump2)

theorem fillHeavy_range (hash : U32 → U32) (numLight numHeavy : Nat) (items : Nat → Item) (stack : Nat → Block64) (n : Nat) :
    fillHeavy hash numLight ((List.range numHeavy).map items) stack n =
      (List.range numHeavy).map (fun i => heavyBlock hash numLight (items i) (stack i)) ++
        (List.range' numHeavy (n - numHeavy)).map fun i => { stack i with blockID := DUMMY_FLAG } := by
  rw [fillHeavy, List.length_map, List.length_range]
  congr 1
  refine List.ext_getElem (by simp) fun i hi hi' => ?_
  simp

theorem foldl_light {num : Nat} (h : P.dump + num * 64 ≤ P.pLight ∨ P.pLight + num * 60 ≤ P.dump) {is : List Nat}
    (hnodup : is.Nodup) (hmem : ∀ i, i ∈ is ↔ i < num) (t : Logged) :
    let t' := is.foldl (fun t i => P.lightTurn i t) t
    blocks t'.m.mem P.dump num =
        Light.lightBlocks (fun a => t.m.mem (P.pLight + a)) (fun i => blockAt t.m.mem (P.dump + i * 64)) num ∧
      (∀ k, k < P.dump ∨ P.dump + num * 64 ≤ k → t'.m.mem k = t.m.mem k) ∧
      t'.log = t.log ++ is.flatMap fun i =>
        [.write (P.dump + i * 64) 2, .read (P.pLight + i * 60) 60, .write (P.dump + i * 64 + 4) 60] := by
  obtain ⟨hblocks, hframe, hlog⟩ :=
    foldl_blocks (P.turn_light h) hnodup (fun i hi => (hmem i).mp hi) t fun a _ => rfl
  refine ⟨List.map_congr_left fun i hi => ?_, hframe, hlog⟩
  have hlt := List.mem_range.mp hi
  rw [hblocks i hlt, if_pos ((hmem i).mpr hlt)]

theorem foldl_heavy (hash : U32 → U32) (numLight : Nat) {dump2 num : Nat}
    (h : dump2 + (numHeavy + (num - numHeavy)) * 64 ≤ P.pHeavy ∨ P.pHeavy + numHeavy * 8 ≤ dump2) (t : Logged) :
    let t₁ := (List.range' numHeavy (num - numHeavy)).foldl (fun t i => dummyTurn dump2 i t) t
    let t₂ := (List.range numHeavy).foldl (fun t i => P.heavyTurn hash numLight dump2 i t) t₁
    blocks t₂.m.mem dump2 (numHeavy + (num - numHeavy)) =
        fillHeavy hash numLight ((List.range numHeavy).map fun i => itemAt t.m.mem (P.pHeavy + i * 8))
          (fun i => blockAt t.m.mem (dump2 + i * 64)) num ∧
      (∀ k, k < dump2 ∨ dump2 + (numHeavy + (num - numHeavy)) * 64 ≤ k → t₂.m.mem k = t.m.mem k) ∧
      t₂.log = t.log ++ ((List.range' numHeavy (num - numHeavy)).flatMap (fun i => [.write (dump2 + i * 64) 2]) ++
        (List.range numHeavy).flatMap (P.heavyAccesses dump2)) := by
  intro t₁ t₂
  have hspare : (List.range' numHeavy (num - numHeavy)).Nodup := List.nodup_range'
  obtain ⟨hblocks₁, hframe₁, hlog₁⟩ := foldl_blocks (turn_dummy dump2 (numHeavy + (num - numHeavy))) hspare
    (fun i hi => by have := List.mem_range'_1.mp hi; omega) t trivial
  have hitems : ∀ i < numHeavy, itemAt t₁.m.mem (P.pHeavy + i * 8) = itemAt t.m.mem (P.pHeavy + i * 8) := fun i hi =>
    itemAt_congr fun k hk => hframe₁ _ (by omega)
  obtain ⟨hblocks₂, hframe₂, hlog₂⟩ := foldl_blocks (P.turn_heavy hash numLight (show dump2 + numHeavy * 64 ≤ P.pHeavy ∨
    P.pHeavy + numHeavy * 8 ≤ dump2 by omega)) List.nodup_range (fun i hi => List.mem_range.mp hi) t₁ hitems
  refine ⟨?_, fun k hk => (hframe₂ k (by omega)).trans (hframe₁ k hk), ?_⟩
  · rw [blocks_add, fillHeavy_range]
    congr 1
    · refine List.map_congr_left fun i hi => ?_
      have hlt := List.mem_range.mp hi
      rw [hblocks₂ i hlt, if_pos hi, hblocks₁ i (by omega), if_neg fun h => by have := List.mem_range'_1.mp h; omega]
    · rw [List.range'_eq_map_range, List.map_map]
      refine List.map_congr_left fun j hj => ?_
      have hlt := List.mem_range.mp hj
      rw [Nat.add_assoc, ← Nat.add_mul, blockAt_congr fun k hk => hframe₂ _ (by omega), hblocks₁ _ (by omega),
        if_pos (List.mem_range'_1.mpr (by omega))]
      rfl
  · rw [hlog₂, hlog₁, List.append_assoc]

theorem fill_spec (hv : P.Valid numLight numHeavy) (hash : U32 → U32) (t : Logged) :
    P.Reaches (numTBlock numLight numHeavy) t (P.fill hash numLight numHeavy t)
        (Light.lightBlocks (fun a => t.m.mem (P.pLight + a)) (fun i => blockAt t.m.mem (P.dump + i * 64))
            (numLight / nRecord) ++
          fillHeavy hash numLight ((List.range numHeavy).map fun i => itemAt t.m.mem (P.pHeavy + i * 8))
            (fun i => blockAt t.m.mem (P.dump + (numLight / nRecord + i) * 64)) (numLight / nRecord))
        (blockAt t.m.mem P.tmpB) ∧
      (P.fill hash numLight numHeavy t).log = t.log ++ P.fillAccesses numLight numHeavy := by
  obtain ⟨h1, -, -, h4, h5, h6, -⟩ := hv.regions
  unfold fill fillAccesses
  unfold numTBlock at *
  have hn1 : numLight / nRecord * 60 ≤ numLight := Nat.div_mul_le_self _ _
  have hn2 : num2Block numLight numHeavy = numHeavy + (numLight / nRecord - numHeavy) := by
    rw [num2Block_eq_max]
    omega
  dsimp only
  rw [hn2] at h1 h4 h5 h6 ⊢
  generalize numLight / nRecord = n1 at *
  obtain ⟨is, his⟩ : ∃ is, (if testPo2 n1 = true then List.range n1 else (List.range n1).reverse) = is := ⟨_, rfl⟩
  have hmem : ∀ i, i ∈ is ↔ i < n1 := by
    intro i
    rw [← his]
    split_ifs <;> simp
  have hnodup : is.Nodup := by
    rw [← his]
    split_ifs
    · exact List.nodup_range
    · exact List.nodup_reverse.mpr List.nodup_range
  rw [his]
  obtain ⟨hblocks₁, hframe₁, hlog₁⟩ := foldl_light (show P.dump + n1 * 64 ≤ P.pLight ∨ P.pLight + n1 * 60 ≤ P.dump by omega)
    hnodup hmem t
  generalize is.foldl (fun t i => P.lightTurn i t) t = t₁ at hblocks₁ hframe₁ hlog₁ ⊢
  obtain ⟨hblocks₂, hframe₂, hlog₂⟩ := foldl_heavy hash numLight (show P.dump + n1 * 64 +
    (numHeavy + (n1 - numHeavy)) * 64 ≤ P.pHeavy ∨ P.pHeavy + numHeavy * 8 ≤ P.dump + n1 * 64 by omega) t₁
  generalize (List.range numHeavy).foldl (fun t i => P.heavyTurn hash numLight (P.dump + n1 * 64) i t) _ = t₂
    at hblocks₂ hframe₂ hlog₂ ⊢
  refine ⟨⟨?_, ?_, fun k hk => ?_⟩, ?_⟩
  · have hitems : ((List.range numHeavy).map fun i => itemAt t₁.m.mem (P.pHeavy + i * 8)) =
        (List.range numHeavy).map fun i => itemAt t.m.mem (P.pHeavy + i * 8) :=
      List.map_congr_left fun i hi => by
        have hlt := List.mem_range.mp hi
        exact itemAt_congr fun k hk => hframe₁ _ (by omega)
    have hstack : (fun i => blockAt t₁.m.mem (P.dump + n1 * 64 + i * 64)) =
        fun i => blockAt t.m.mem (P.dump + (n1 + i) * 64) := funext fun i => by
      rw [Nat.add_mul, ← Nat.add_assoc]
      exact blockAt_congr fun k hk => hframe₁ _ (by omega)
    have hlight : blocks t₂.m.mem P.dump n1 = blocks t₁.m.mem P.dump n1 :=
      blocks_congr fun k hk hk' => hframe₂ k (by omega)
    rw [blocks_add, hlight, hblocks₁, hblocks₂, hitems, hstack]
  · exact blockAt_congr fun k hk => (hframe₂ _ (by omega)).trans (hframe₁ _ (by omega))
  · have hd := hk.1
    rw [hframe₂ k (by omega), hframe₁ k (by omega)]
  · rw [hlog₂, hlog₁]
    simp only [List.append_assoc]

end Fill

/-! ## The update -/

section Whole
variable {P : Places} {numLight numHeavy : Nat}

theorem length_OMax (l : List Block64) (b : Block64) (cond : Bool) : (OMax l b cond).length = l.length := by
  rw [Light.OMax_eq, Keyed.length_maxScan]

/-- The run, when no stage fails. -/
theorem OUpdateCUSketch_BEx_of_stages (hLight : 0 < numLight / nRecord) (hHeavy : 0 < numHeavy) (hash : U32 → U32)
    (pad pad' : Nat → Nat → Byte) {t t₁ t₂ t₃ t₄ : Logged}
    (h₁ : sortASC (P.blockArr (P.dump + numLight / nRecord * 64)) (testPo2 (num2Block numLight numHeavy))
      (num2Block numLight numHeavy) (P.fill hash numLight numHeavy t) = some t₁)
    (h₂ : sortASC (P.blockArr (P.dump + numLight / nRecord * 64)) (testPo2 (num2Block numLight numHeavy))
      (num2Block numLight numHeavy) (omax (P.dump + numLight / nRecord * 64) P.tmpB pad numHeavy t₁) = some t₂)
    (h₃ : mergeASC (P.blockArr P.dump) (testPo2 (numLight / nRecord)) (numLight / nRecord * 2) t₂ = some t₃)
    (h₄ : sortASC (P.blockArr P.dump) (testPo2 (numLight / nRecord)) (numLight / nRecord * 2)
      (omax P.dump P.tmpB pad' (numLight / nRecord * 2) t₃) = some t₄) :
    P.OUpdateCUSketch_BEx hash pad pad' numLight numHeavy t =
      some ((List.range (numLight / nRecord)).foldl (fun t i => P.copyTurn i t) t₄) := by
  have hnum : (if numLight / nRecord < numHeavy then numHeavy else numLight / nRecord) = num2Block numLight numHeavy := rfl
  unfold OUpdateCUSketch_BEx
  dsimp only
  rw [if_neg (by omega), hnum]
  simp only [h₁, h₂, h₃, h₄, Option.bind_eq_bind, Option.bind_some]

theorem OUpdateCUSketch_BEx_stages (hash : U32 → U32) (stack : Nat → Block64) (b : Block64) (pLight : Nat → Byte)
    (numLight : Nat) (pHeavy : List Item) :
    let n := numLight / nRecord
    let num2 := num2Block numLight pHeavy.length
    let e := FOSketch.sortASC greater_SP (testPo2 num2)
      (fillHeavy hash numLight pHeavy (fun i => stack (n + i)) n) num2
    let e' := OMax (e.take pHeavy.length) b true
    let l := FOSketch.mergeASC greater_SP (testPo2 n) (Light.lightBlocks pLight stack n ++
      FOSketch.sortASC greater_SP (testPo2 num2) (e' ++ e.drop pHeavy.length) num2) (n * 2)
    let l' := OMax (l.take (n * 2)) (e'.getLastD b) true
    FOSketch.OUpdateCUSketch_BEx hash stack b pLight numLight pHeavy =
      copyBack pLight (FOSketch.sortASC greater_SP (testPo2 n) (l' ++ l.drop (n * 2)) (n * 2)) n := by
  intro n num2 e e' l l'
  have hlight : (if testPo2 n then fillLight pLight (List.range n) ((List.range n).map stack)
      else fillLight pLight (List.range n).reverse ((List.range n).map stack)) = Light.lightBlocks pLight stack n := by
    rw [Light.fillLight_eq pLight stack fun i => List.mem_range,
      Light.fillLight_eq pLight stack fun i => List.mem_reverse.trans List.mem_range, ite_self]
  have hlen : e.length = num2 := by
    rw [(Light.sortASC_perm ..).length_eq, Light.length_fillHeavy]
    rfl
  have hle : pHeavy.length ≤ num2 := (le_max_right _ _).trans (num2Block_eq_max ..).ge
  have hscanned : (e' ++ e.drop pHeavy.length).take pHeavy.length = e' := by
    rw [List.take_left']
    rw [length_OMax, List.length_take, hlen, Nat.min_eq_left hle]
  have hlast : ((e' ++ e.drop pHeavy.length).take pHeavy.length).getLastD b = e'.getLastD b := by rw [hscanned]
  unfold l' l
  rw [← hlast, ← hlight]
  rfl

/-- The blocks before they are copied back. -/
theorem stages_spec (hv : P.Valid numLight numHeavy) (hLight : 0 < numLight / nRecord) (hHeavy : 0 < numHeavy)
    (hmaxLight : numLight / nRecord * 2 ≤ 2 ^ 30) (hmaxHeavy : numHeavy ≤ 2 ^ 30) (hash : U32 → U32)
    {pad pad' : Nat → Nat → Byte} (hpad : Clean pad) (hpad' : Clean pad') (t : Logged) :
    let pLight := fun a => t.m.mem (P.pLight + a)
    ∃ t₁ l b, P.OUpdateCUSketch_BEx hash pad pad' numLight numHeavy t =
        some ((List.range (numLight / nRecord)).foldl (fun t i => P.copyTurn i t) t₁) ∧
      P.Reaches (numTBlock numLight numHeavy) t t₁ l b ∧
      FOSketch.OUpdateCUSketch_BEx hash (fun i => blockAt t.m.mem (P.dump + i * 64)) (blockAt t.m.mem P.tmpB) pLight
        numLight ((List.range numHeavy).map fun i => itemAt t.m.mem (P.pHeavy + i * 8)) =
          copyBack pLight l (numLight / nRecord) := by
  obtain ⟨-, -, -, -, hdump, htmp, htmpB⟩ := hv.regions
  obtain ⟨hfill, -⟩ := fill_spec hv hash t
  intro pLight
  have hbetween : numHeavy ≤ num2Block numLight numHeavy ∧ numLight / nRecord ≤ num2Block numLight numHeavy ∧
      num2Block numLight numHeavy ≤ 2 ^ 30 := by
    rw [num2Block_eq_max]
    omega
  unfold numTBlock at *
  have hsub : numLight / nRecord + num2Block numLight numHeavy - numLight / nRecord = num2Block numLight numHeavy := by
    omega
  have hall : numLight / nRecord * 2 ≤ numLight / nRecord + num2Block numLight numHeavy := by omega
  have hbehind : P.tmp + 64 ≤ P.dump + numLight / nRecord * 64 ∨ P.dump + numLight / nRecord * 64 +
      (numLight / nRecord + num2Block numLight numHeavy - numLight / nRecord) * 64 ≤ P.tmp := by omega
  have hsort := sortASC_spec hbehind hsub.ge hbetween.2.2 (testPo2 (num2Block numLight numHeavy))
  obtain ⟨t₁, t₂, hrun₁, hrun₂, hheavy⟩ :=
    hfill.pass hdump htmp htmpB hpad hHeavy (Nat.add_le_add_left hbetween.1 _) hsort hsort
  obtain ⟨t₃, t₄, hrun₃, hrun₄, hlight⟩ := hheavy.pass (a := 0) hdump htmp htmpB hpad'
    (show 0 < numLight / nRecord * 2 by omega) (by omega)
    (mergeASC_spec htmp.symm hall hmaxLight (testPo2 (numLight / nRecord)))
    (sortASC_spec htmp.symm hall hmaxLight (testPo2 (numLight / nRecord)))
  refine ⟨t₄, _, _, OUpdateCUSketch_BEx_of_stages hLight hHeavy hash pad pad' hrun₁ hrun₂ hrun₃ hrun₄, hlight, ?_⟩
  have hlen := Light.length_lightBlocks pLight (fun i => blockAt t.m.mem (P.dump + i * 64)) (numLight / nRecord)
  rw [OUpdateCUSketch_BEx_stages, List.length_map, List.length_range, List.take_left' hlen, List.drop_left' hlen,
    List.take_zero, List.nil_append, List.drop_zero]

end Whole

def updateAccesses (P : Places) (numLight numHeavy : Nat) : List Access :=
  let num1Block := numLight / nRecord
  let num2Block := num2Block numLight numHeavy
  let dump2 := P.dump + num1Block * 64
  let heavy := sortAccesses (P.blockArr dump2) (testPo2 num2Block) num2Block ++
    (omaxAccesses dump2 P.tmpB numHeavy ++ sortAccesses (P.blockArr dump2) (testPo2 num2Block) num2Block)
  let light := mergeAccesses (P.blockArr P.dump) (testPo2 num1Block) (num1Block * 2) ++
    (omaxAccesses P.dump P.tmpB (num1Block * 2) ++ sortAccesses (P.blockArr P.dump) (testPo2 num1Block) (num1Block * 2))
  let copied := (List.range num1Block).flatMap fun i => [.read (P.dump + i * 64 + 4) 60, .write (P.pLight + i * 60) 60]
  P.fillAccesses numLight numHeavy ++ (heavy ++ (light ++ copied))

def twoBlocks : Places := ⟨0, 128, 192, 512, 576⟩

theorem valid_twoBlocks : twoBlocks.Valid 120 3 := ⟨rfl, by decide⟩

section Result
variable {P : Places} {numLight numHeavy : Nat} (hv : P.Valid numLight numHeavy) (hLight : 0 < numLight / nRecord)
  (hHeavy : 0 < numHeavy) (hmaxLight : numLight / nRecord * 2 ≤ 2 ^ 30) (hmaxHeavy : numHeavy ≤ 2 ^ 30)
include hv hLight hHeavy hmaxLight hmaxHeavy

/-- **The update of the bytes is that of the blocks.** If the bytes behind `cond` are zero, a run leaves in the light part
what `FOSketch.OUpdateCUSketch_BEx` computes from the counters, the items and what lay in the local arrays, and the rest of
memory as it was, but for those arrays. -/
theorem OUpdateCUSketch_BEx_refines (hash : U32 → U32) {pad pad' : Nat → Nat → Byte} (hpad : Clean pad)
    (hpad' : Clean pad') (t : Logged) :
    let pLight' := FOSketch.OUpdateCUSketch_BEx hash (fun i => blockAt t.m.mem (P.dump + i * 64)) (blockAt t.m.mem P.tmpB)
      (fun a => t.m.mem (P.pLight + a)) numLight ((List.range numHeavy).map fun i => itemAt t.m.mem (P.pHeavy + i * 8))
    ∃ t', P.OUpdateCUSketch_BEx hash pad pad' numLight numHeavy t = some t' ∧
      (∀ a < numLight, t'.m.mem (P.pLight + a) = pLight' a) ∧
      ∀ k, P.Away (numTBlock numLight numHeavy) k → (k < P.pLight ∨ P.pLight + numLight ≤ k) →
        t'.m.mem k = t.m.mem k := by
  intro pLight'
  obtain ⟨h1, h2, h3, -⟩ := hv.regions
  obtain ⟨t₁, l, b, hrun, hreach, hmodel⟩ := stages_spec hv hLight hHeavy hmaxLight hmaxHeavy hash hpad hpad' t
  have hn1 : numLight / nRecord * 60 ≤ numLight := Nat.div_mul_le_self _ _
  have hpos : numLight / nRecord ≤ numTBlock numLight numHeavy := Nat.le_add_right _ _
  obtain ⟨hcopied, hframe, -⟩ := copyBack_spec P
    (show P.dump + numLight / nRecord * 64 ≤ P.pLight ∨ P.pLight + numLight / nRecord * 60 ≤ P.dump by omega) _ le_rfl t₁
  refine ⟨_, hrun, fun a ha => ?_, fun k hk hlight => ?_⟩
  · rw [show pLight' a = _ from congrFun hmodel a]
    rcases lt_or_ge (a / 60) (numLight / nRecord) with hlow | hhigh
    · have hblock : l[a / 60]? = some (blockAt t₁.m.mem (P.dump + a / 60 * 64)) := by
        rw [← hreach.blocks]
        exact getElem?_blocks _ _ (hlow.trans_le hpos)
      have hsplit : P.pLight + a = P.pLight + a / 60 * 60 + a % 60 := by omega
      rw [Light.copyBack_some _ hlow hblock, hsplit, hcopied _ hlow _ (Nat.mod_lt _ (by decide))]
      rfl
    · rw [Light.copyBack_none _ _ hhigh, hframe _ (by omega), hreach.frame _ ⟨by omega, by omega, by omega⟩]
  · rw [hframe k (by omega), hreach.frame k hk]

omit hv hLight hHeavy hmaxLight hmaxHeavy in
theorem OUpdateCUSketch_BEx_refines_twoBlocks :
    0 < 120 / nRecord ∧ Clean (fun _ _ => 0) ∧ ∀ hash t,
      let pLight' := FOSketch.OUpdateCUSketch_BEx hash (fun i => blockAt t.m.mem (192 + i * 64)) (blockAt t.m.mem 512)
        (fun a => t.m.mem (0 + a)) 120 ((List.range 3).map fun i => itemAt t.m.mem (128 + i * 8))
      ∃ t', twoBlocks.OUpdateCUSketch_BEx hash (fun _ _ => 0) (fun _ _ => 0) 120 3 t = some t' ∧
        (∀ a < 120, t'.m.mem (0 + a) = pLight' a) ∧
        ∀ k, twoBlocks.Away (numTBlock 120 3) k → (k < 0 ∨ 0 + 120 ≤ k) → t'.m.mem k = t.m.mem k :=
  ⟨by decide, fun _ => ⟨rfl, rfl, rfl⟩, fun hash t => OUpdateCUSketch_BEx_refines valid_twoBlocks (by decide) (by decide)
    (by decide) (by decide) hash (fun _ => ⟨rfl, rfl, rfl⟩) (fun _ => ⟨rfl, rfl, rfl⟩) t⟩

/-- **The update of the bytes is oblivious.** A run shows the cache lines of `updateAccesses`, which know the places and
sizes of the arrays only, whatever lies in memory and behind `cond`, and for every hash. -/
theorem OUpdateCUSketch_BEx_oblivious (hash : U32 → U32) (pad pad' : Nat → Nat → Byte) (t : Logged) :
    ∃ t' real, P.OUpdateCUSketch_BEx hash pad pad' numLight numHeavy t = some t' ∧ t'.log = t.log ++ real ∧
      seen real = seen (P.updateAccesses numLight numHeavy) := by
  obtain ⟨h1, -, -, -, -, htmp, -⟩ := hv.regions
  obtain ⟨-, hfill⟩ := fill_spec hv hash t
  have haligned := hv.aligned
  have hn1 : numLight / nRecord * 60 ≤ numLight := Nat.div_mul_le_self _ _
  have hbetween : numLight / nRecord ≤ num2Block numLight numHeavy ∧ num2Block numLight numHeavy ≤ 2 ^ 30 := by
    rw [num2Block_eq_max]
    omega
  unfold numTBlock at h1 htmp
  have hall : numLight / nRecord * 2 ≤ numLight / nRecord + num2Block numLight numHeavy := by omega
  have hbehind : P.tmp + 64 ≤ P.dump + numLight / nRecord * 64 ∨
      P.dump + numLight / nRecord * 64 + num2Block numLight numHeavy * 64 ≤ P.tmp := by omega
  have halign₂ : (P.dump + numLight / nRecord * 64) % 64 = 0 := by omega
  have hsort := sortASC_spec hbehind le_rfl hbetween.2 (testPo2 (num2Block numLight numHeavy))
  obtain ⟨t₁, t₂, hrun₁, hrun₂, hheavy⟩ := pass_logs (show (P.dump + numLight / nRecord * 64) % 64 = 0 by omega) hsort hsort
    pad numHeavy (P.fill hash numLight numHeavy t)
  obtain ⟨t₃, t₄, hrun₃, hrun₄, hlight⟩ := pass_logs hv.aligned
    (mergeASC_spec htmp.symm hall hmaxLight (testPo2 (numLight / nRecord)))
    (sortASC_spec htmp.symm hall hmaxLight (testPo2 (numLight / nRecord))) pad' (numLight / nRecord * 2) t₂
  obtain ⟨-, -, hcopy⟩ := copyBack_spec P
    (show P.dump + numLight / nRecord * 64 ≤ P.pLight ∨ P.pLight + numLight / nRecord * 60 ≤ P.dump by omega) _ le_rfl t₄
  have hlogs := (Logs.of_eq hfill).trans (hheavy.trans (hlight.trans (.of_eq hcopy)))
  obtain ⟨real, hreal, hseen⟩ := hlogs.seen_eq
  exact ⟨_, real, OUpdateCUSketch_BEx_of_stages hLight hHeavy hash pad pad' hrun₁ hrun₂ hrun₃ hrun₄, hreal, hseen⟩

omit hv hLight hHeavy hmaxLight hmaxHeavy in
theorem OUpdateCUSketch_BEx_oblivious_twoBlocks :
    0 < 120 / nRecord ∧ ∀ hash pad pad' t, ∃ t' real,
      twoBlocks.OUpdateCUSketch_BEx hash pad pad' 120 3 t = some t' ∧ t'.log = t.log ++ real ∧
        seen real = seen (twoBlocks.updateAccesses 120 3) :=
  ⟨by decide, fun hash pad pad' t => OUpdateCUSketch_BEx_oblivious valid_twoBlocks (by decide) (by decide) (by decide)
    (by decide) hash pad pad' t⟩

end Result

end Places

end FOSketch.Asm
