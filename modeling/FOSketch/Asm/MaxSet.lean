import FOSketch.Asm.Machine
import FOSketch.Light.Update

/-!
# `OMaxSetMemCL`

The statement moves four bytes from the address of the `uint8_t` `cond` to `eax`. So the bytes that lie next to `cond` count
as well: if `cond` is zero and one of them is not, both blocks get the old `px` in place of the maximum
(`OMaxSetMemCL_iff`). What the statement leaves is the block of `FOSketch.OMaxSetMemCL` for the whole word
(`blockAt_OMaxSetMemCL`).
-/

namespace FOSketch.Asm

open Memory

/-! ## The statement -/

def combine : List Instr :=
  [.movPointer 1, .load 32 14, .add 32, .load 32 15, .movPointer 0, .load 32 13, .vpmaxub 13 14 14, .add 32, .load 32 13,
    .vpmaxub 13 15 15, .movWord 2, .test]

/-- The block `px` again, its upper half first. -/
def reload : List Instr := [.load 32 15, .add (-32), .load 32 14]

def writeBack : List Instr :=
  [.movPointer 1, .store 32 14, .add 32, .store 32 15, .movPointer 0, .store 32 14, .add 32, .store 32 15]

/-- `OMaxSetMemCL(px, py, cond)`; `stack` is memory from `&cond` on. -/
def OMaxSetMemCL (px py : Nat) (stack : Nat → Byte) (m : Machine Byte) : Machine Byte :=
  exec ⟨fun k => if k = 0 then px else py, fun _ => load stack 0 4⟩
    (combine ++ .je (.L 6) :: (reload ++ .label (.L 6) :: writeBack)) m

/-- Both blocks are the old `px` if `cond` is not zero, and the maximum of the two if it is. -/
def MaxSet (px py : Nat) (cond : Byte) (m m' : Machine Byte) : Prop :=
  let v := if cond ≠ 0 then load m.mem px 64 else List.zipWith max (load m.mem px 64) (load m.mem py 64)
  load m'.mem px 64 = v ∧ load m'.mem py 64 = v

/-! ## Its three parts -/

theorem toNat_add_32 (a : Nat) : ((a : Int) + 32).toNat = a + 32 := by omega

theorem toNat_sub_32 (a : Nat) : (((a + 32 : Nat) : Int) + -32).toNat = a := by omega

section Parts
variable (args : Operands Byte) (m : Machine Byte)

theorem run_combine :
    (run args combine m).r14 = args.pointer 0 + 32 ∧ (run args combine m).mem = m.mem ∧
    (run args combine m).zf = decide (∀ b ∈ args.word 2, b = 0) ∧
    (run args combine m).ymm 14 = List.zipWith max (load m.mem (args.pointer 0) 32) (load m.mem (args.pointer 1) 32) ∧
    (run args combine m).ymm 15 =
      List.zipWith max (load m.mem (args.pointer 0 + 32) 32) (load m.mem (args.pointer 1 + 32) 32) := by
  simp [combine, step, toNat_add_32]

theorem run_reload {px : Nat} (h : m.r14 = px + 32) :
    (run args reload m).mem = m.mem ∧ (run args reload m).ymm 14 = load m.mem px 32 ∧
    (run args reload m).ymm 15 = load m.mem (px + 32) 32 := by
  simp only [reload, run_cons, run_nil, step, h, toNat_sub_32]
  simp

theorem run_writeBack {lo hi : List Byte} (hlo : m.ymm 14 = lo) (hhi : m.ymm 15 = hi) (hlen : lo.length = 32)
    (hlen' : hi.length = 32) :
    (run args writeBack m).mem =
      store (store m.mem (args.pointer 1) (lo ++ hi)) (args.pointer 0) (lo ++ hi) := by
  have hlo' : lo.take 32 = lo := by rw [← hlen, List.take_length]
  have hhi' : hi.take 32 = hi := by rw [← hlen', List.take_length]
  simp only [writeBack, run_cons, run_nil, step, hlo, hhi, hlo', hhi', toNat_add_32]
  rw [← store_append, ← store_append, hlen]

end Parts

/-- The block that both places get, for the word at the address of `cond`. -/
theorem OMaxSetMemCL_mem (px py : Nat) (stack : Nat → Byte) (m : Machine Byte) :
    let v := if ∀ b ∈ load stack 0 4, b = 0 then List.zipWith max (load m.mem px 64) (load m.mem py 64)
      else load m.mem px 64
    (OMaxSetMemCL px py stack m).mem = store (store m.mem py v) px v := by
  let args : Operands Byte := ⟨fun k => if k = 0 then px else py, fun _ => load stack 0 4⟩
  obtain ⟨hr14, hmem, hzf, h14, h15⟩ := run_combine args m
  obtain ⟨hmem', h14', h15'⟩ := run_reload args (run args combine m) hr14
  have hload : ∀ p, load m.mem p 64 = load m.mem p 32 ++ load m.mem (p + 32) 32 := fun p => load_add m.mem p 32 32
  have hexec : OMaxSetMemCL px py stack m = _ := exec_skip args rfl rfl rfl m
  rw [hexec]
  by_cases hz : ∀ b ∈ load stack 0 4, b = 0
  · have hzf' : (run args combine m).zf = true := hzf.trans (decide_eq_true hz)
    rw [if_pos hzf', if_pos hz, run_writeBack args _ h14 h15 (by simp) (by simp), hmem, hload, hload,
      List.zipWith_append (by simp)]
    rfl
  · have hzf' : ¬ (run args combine m).zf = true := by
      rw [hzf, decide_eq_true_eq]
      exact hz
    rw [if_neg hzf', if_neg hz, run_writeBack args _ h14' h15' (by simp) (by simp), hmem', hmem, hload]
    rfl

/-! ## What it does to two blocks -/

/-- Two places of a cache line each: one line, or two that do not overlap. -/
def Lines (px py : Nat) : Prop := px = py ∨ px + CACHE_LINE ≤ py ∨ py + CACHE_LINE ≤ px

theorem load_both {px py : Nat} (h : Lines px py) (mem : Nat → Byte) {v : List Byte} (hv : v.length = 64) :
    load (store (store mem py v) px v) px 64 = v ∧ load (store (store mem py v) px v) py 64 = v := by
  have hpx : load (store (store mem py v) px v) px 64 = v := load_store_of_length _ px hv
  refine ⟨hpx, ?_⟩
  unfold Lines CACHE_LINE at h
  rcases h with rfl | h | h
  · exact hpx
  · rw [load_store_outside _ (Or.inr (by omega)), load_store_of_length _ _ hv]
  · rw [load_store_outside _ (Or.inl (by omega)), load_store_of_length _ _ hv]

theorem word_eq_zero_iff (stack : Nat → Byte) :
    (∀ b ∈ load stack 0 4, b = 0) ↔ stack 0 = 0 ∧ stack 1 = 0 ∧ stack 2 = 0 ∧ stack 3 = 0 := by
  simp [load, List.range_succ]

theorem load_eq_zipWith_max_iff (mem : Nat → Byte) (px py n : Nat) :
    load mem px n = List.zipWith max (load mem px n) (load mem py n) ↔ ∀ k < n, mem (py + k) ≤ mem (px + k) := by
  rw [zipWith_load, load, List.map_inj_left]
  simp only [List.mem_range, left_eq_sup]

/-- With a zero `cond` and another byte of the word both blocks are the old `px`. -/
theorem maxSet_iff_of_word {px py : Nat} (h : Lines px py) {stack : Nat → Byte} (h0 : stack 0 = 0)
    (hrest : ¬ (stack 1 = 0 ∧ stack 2 = 0 ∧ stack 3 = 0)) (m : Machine Byte) :
    MaxSet px py (stack 0) m (OMaxSetMemCL px py stack m) ↔ ∀ k < 64, m.mem (py + k) ≤ m.mem (px + k) := by
  have hmem := OMaxSetMemCL_mem px py stack m
  have hword : ¬ ∀ b ∈ load stack 0 4, b = 0 := fun hw => hrest ((word_eq_zero_iff stack).mp hw).2
  obtain ⟨hx, hy⟩ := load_both h m.mem (length_load m.mem px 64)
  dsimp only at hmem
  unfold MaxSet
  rw [hmem, if_neg (not_not.mpr h0), if_neg hword]
  dsimp only
  rw [hx, hy, and_self, load_eq_zipWith_max_iff]

/-- **`OMaxSetMemCL`** does what it should unless `cond` is zero, one of the three bytes behind it is not, and some byte of
`py` exceeds the one of `px`. -/
theorem OMaxSetMemCL_iff {px py : Nat} (h : Lines px py) (stack : Nat → Byte) (m : Machine Byte) :
    MaxSet px py (stack 0) m (OMaxSetMemCL px py stack m) ↔
      stack 0 ≠ 0 ∨ (stack 1 = 0 ∧ stack 2 = 0 ∧ stack 3 = 0) ∨ ∀ k < 64, m.mem (py + k) ≤ m.mem (px + k) := by
  have hmem := OMaxSetMemCL_mem px py stack m
  dsimp only at hmem
  by_cases h0 : stack 0 = 0
  · by_cases hrest : stack 1 = 0 ∧ stack 2 = 0 ∧ stack 3 = 0
    · unfold MaxSet
      rw [hmem, if_neg (not_not.mpr h0), if_pos ((word_eq_zero_iff stack).mpr ⟨h0, hrest⟩)]
      exact ⟨fun _ => .inr (.inl hrest), fun _ => load_both h m.mem (by simp)⟩
    · rw [maxSet_iff_of_word h h0 hrest]
      exact ⟨fun hle => .inr (.inr hle), fun hor => (hor.resolve_left (not_not.mpr h0)).resolve_left hrest⟩
  · have hword : ¬ ∀ b ∈ load stack 0 4, b = 0 := fun hw => h0 ((word_eq_zero_iff stack).mp hw).1
    unfold MaxSet
    rw [hmem, if_neg hword, if_pos h0]
    exact ⟨fun _ => .inl h0, fun _ => load_both h m.mem (length_load m.mem px 64)⟩

/-- Two lines, the upper one larger in every byte, and whatever the registers hold. -/
def twoLines : Machine Byte where
  r14 := 0
  eax := []
  zf := false
  ymm := fun _ => []
  mem := fun k => if k < 64 then 1 else 2

theorem OMaxSetMemCL_iff_twoLines :
    MaxSet 0 64 0 twoLines (OMaxSetMemCL 0 64 (fun _ => 0) twoLines) ↔
      (0 : Byte) ≠ 0 ∨ ((0 : Byte) = 0 ∧ (0 : Byte) = 0 ∧ (0 : Byte) = 0) ∨
        ∀ k < 64, twoLines.mem (64 + k) ≤ twoLines.mem (0 + k) :=
  OMaxSetMemCL_iff (.inr (.inl le_rfl)) (fun _ => 0) twoLines

/-- A zero byte with other bytes behind it. -/
def stale : Nat → Byte := fun k => if k = 0 then 0 else 1

/-- A zero `cond` in front of a byte that is not zero. -/
theorem OMaxSetMemCL_keeps_px :
    ¬ (∀ {px py : Nat}, Lines px py → ∀ (stack : Nat → Byte) (m : Machine Byte),
      MaxSet px py (stack 0) m (OMaxSetMemCL px py stack m)) := by
  intro hall
  have hlines : Lines 0 64 := .inr (.inl le_rfl)
  have h := (maxSet_iff_of_word hlines (show stale 0 = 0 from rfl) (by decide) twoLines).mp (hall hlines stale twoLines)
  exact absurd (h 0 (by decide)) (by decide)

/-! ## Blocks -/

def blockAt (mem : Nat → Byte) (p : Nat) : Block64 where
  blockID := toBid ((mem p).val + 256 * (mem (p + 1)).val)
  pos := toBid ((mem (p + 2)).val + 256 * (mem (p + 3)).val)
  data := fun j => mem (p + 4 + j.val)

theorem blockAt_congr {mem mem' : Nat → Byte} {p p' : Nat} (h : ∀ k < 64, mem (p + k) = mem' (p' + k)) :
    blockAt mem p = blockAt mem' p' := by
  have h0 := h 0 (by decide)
  unfold blockAt
  rw [Nat.add_zero, Nat.add_zero] at h0
  rw [h0, h 1 (by decide), h 2 (by decide), h 3 (by decide)]
  congr 1
  funext j
  rw [Nat.add_assoc, Nat.add_assoc]
  exact h (4 + j.val) (by omega)

theorem toBid_bytes (a b : Byte) :
    (toBid (a.val + 256 * b.val)).val % 256 = a.val ∧ (toBid (a.val + 256 * b.val)).val / 256 = b.val := by
  rw [toBid_val]
  omega

theorem vpmaxub_toBid (a b c d : Byte) :
    FOSketch.vpmaxub (toBid (a.val + 256 * b.val)) (toBid (c.val + 256 * d.val)) =
      toBid ((max a c).val + 256 * (max b d).val) := by
  obtain ⟨ha, hb⟩ := toBid_bytes a b
  obtain ⟨hc, hd⟩ := toBid_bytes c d
  have hac := (max a c).isLt
  have hbd := (max b d).isLt
  apply Fin.ext
  unfold FOSketch.vpmaxub
  dsimp only
  rw [ha, hb, hc, hd, toBid_val, Nat.mod_eq_of_lt (by omega), Fin.coe_max, Fin.coe_max]
  ring

theorem blockAt_max (mem : Nat → Byte) (px py : Nat) :
    blockAt (fun k => max (mem (px + k)) (mem (py + k))) 0 =
      FOSketch.OMaxSetMemCL (blockAt mem px) (blockAt mem py) false := by
  have hdata : ∀ j, px + (4 + j) = px + 4 + j ∧ py + (4 + j) = py + 4 + j := fun j => by omega
  unfold FOSketch.OMaxSetMemCL blockAt
  rw [if_neg Bool.false_ne_true, vpmaxub_toBid, vpmaxub_toBid]
  simp only [Nat.zero_add, Nat.add_zero, hdata]

/-- What the statement leaves in both blocks is the block of the light-part update, for the word in the place of `cond`. -/
theorem blockAt_OMaxSetMemCL {px py p : Nat} (h : Lines px py) (hp : p = px ∨ p = py) (stack : Nat → Byte)
    (m : Machine Byte) :
    blockAt (OMaxSetMemCL px py stack m).mem p =
      FOSketch.OMaxSetMemCL (blockAt m.mem px) (blockAt m.mem py) (!decide (∀ b ∈ load stack 0 4, b = 0)) := by
  have hmem := OMaxSetMemCL_mem px py stack m
  dsimp only at hmem
  have hload : ∀ v : List Byte, v.length = 64 → load (store (store m.mem py v) px v) p 64 = v := by
    intro v hv
    obtain ⟨hx, hy⟩ := load_both h m.mem hv
    rcases hp with rfl | rfl
    · exact hx
    · exact hy
  rw [hmem]
  by_cases hz : ∀ b ∈ load stack 0 4, b = 0
  · have hk := hload _ (show (List.zipWith max (load m.mem px 64) (load m.mem py 64)).length = 64 by simp)
    rw [if_pos hz, decide_eq_true hz]
    generalize store _ px _ = mem' at hk ⊢
    rw [zipWith_load, load, List.map_inj_left] at hk
    rw [Bool.not_true, ← blockAt_max]
    refine blockAt_congr fun k hlt => ?_
    rw [Nat.zero_add]
    exact hk k (List.mem_range.mpr hlt)
  · have hk := hload _ (length_load m.mem px 64)
    rw [if_neg hz, decide_eq_false hz]
    refine blockAt_congr fun k hlt => ?_
    exact List.map_inj_left.mp hk k (List.mem_range.mpr hlt)

end FOSketch.Asm
