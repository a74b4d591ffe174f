import FOSketch.Asm.Machine
import FOSketch.Common

/-!
# The general `OMoveEx`

The pair of `OMoveEx` that is built without `OMOVEEX_FASTER` moves 32 bytes at a time, and then 16, 8, 4, 2 and 1. The tests
of the stages behind the loop are `size && (1<<4)` and so on, a logical and, so that every stage is run for every size that
reaches it, and the loop leaves `x` and `y` at the start of its last 32 bytes. `OMoveEx_general_iff` says for which sizes
and contents the two forms move what they should all the same.
-/

namespace FOSketch.Asm

open Memory

/-! ## The two forms -/

def wordBytes (w : U32) : List Byte :=
  [toByte w.val, toByte (w.val / 256), toByte (w.val / 65536), toByte (w.val / 16777216)]

def logicalAnd (a b : Nat) : Bool := a != 0 && b != 0

/-- The control flow of both forms, for the loop body and the five stages: `loop32 i` moves the 32 bytes from `i` on, and
`x` is the pointer that the assertion compares with `px + size`. `none` is the end by the assertion or, for sizes from
`2 ^ 31` on, the overflow of the `int` counter `i`. -/
def stages {σ : Type*} (loop32 : Nat → σ → σ) (move16 move8 move4 move2 move1 : σ → σ) (x : σ → Nat) (px : Nat) (size : U32)
    (v : σ) : Option σ :=
  let curLength := size.val &&& 0xFFFFFFE0
  if 2147483648 ≤ curLength then none
  else
    let v := (List.range (curLength / 32)).foldl (fun v k => loop32 (32 * k) v) v
    if size.val = curLength then some v
    else
      let r := if logicalAnd size.val (1 <<< 4) then (move16 v, curLength + 16) else (v, curLength)
      let v := r.1
      let curLength := r.2
      if size.val = curLength then some v
      else
        let v := if logicalAnd size.val (1 <<< 3) then move8 v else v
        let v := if logicalAnd size.val (1 <<< 2) then move4 v else v
        let v := if logicalAnd size.val (1 <<< 1) then move2 v else v
        let v := if logicalAnd size.val (1 <<< 0) then move1 v else v
        if x v = px + size.val then some v else none

/-- The pointers `x` and `y` of the two-operand form. -/
structure Vars2 where
  x : Nat
  y : Nat
  m : Machine Byte

structure Vars3 where
  x : Nat
  y : Nat
  z : Nat
  m : Machine Byte

/-- The choice between two stores of `n` bytes, with the labels `L l` and `E l`. -/
def choose (n l : Nat) (p : List Instr) : List Instr :=
  p ++ Instr.je (.L l) :: ([Instr.store n 14] ++ Instr.jmp (.E l) :: Instr.label (.L l) ::
    ([Instr.store n 15] ++ Instr.label (.E l) :: [Instr.nop]))

/-- The statement of the two-operand form that moves `n` bytes. -/
def vector2 (cond : U32) (n l : Nat) (v : Vars2) : Vars2 :=
  let args := ⟨fun k => if k = 0 then v.x else v.y, fun _ => wordBytes cond⟩
  let p := [.movPointer 1, .load n 14, .movPointer 0, .load n 15, .movWord 2, .test]
  { v with m := exec args (choose n l p) v.m }

def vector3 (cond : U32) (n l : Nat) (v : Vars3) : Vars3 :=
  let args := ⟨fun k => if k = 0 then v.z else if k = 1 then v.x else v.y, fun _ => wordBytes cond⟩
  let p := [.movPointer 1, .load n 14, .movPointer 2, .load n 15, .movPointer 0, .movWord 3, .test]
  { v with m := exec args (choose n l p) v.m }

/-- A move of `n` bytes from `a` or `b` to `d` by `OMove(a, b, cond)`. -/
def scalar (cond : U32) (n d a b : Nat) (m : Machine Byte) : Machine Byte :=
  { m with mem := store m.mem d (OMove (load m.mem a n) (load m.mem b n) (decide (cond ≠ 0))) }

def half2 (cond : U32) (v : Vars2) : Vars2 := ⟨v.x + 16, v.y + 16, (vector2 cond 16 1 v).m⟩

def stage2 (cond : U32) (n : Nat) (v : Vars2) : Vars2 := ⟨v.x + n, v.y + n, scalar cond n v.x v.x v.y v.m⟩

def OMoveEx2 (px py : Nat) (cond size : U32) (m : Machine Byte) : Option (Machine Byte) :=
  (stages (fun i v => vector2 cond 32 0 { v with x := px + i, y := py + i }) (half2 cond)
    (stage2 cond 8) (stage2 cond 4) (stage2 cond 2) (stage2 cond 1) Vars2.x px size ⟨px, py, m⟩).map Vars2.m

def half3 (cond : U32) (v : Vars3) : Vars3 := ⟨v.x + 16, v.y + 16, v.z + 16, (vector3 cond 16 3 v).m⟩

def stage3 (cond : U32) (n : Nat) (v : Vars3) : Vars3 := ⟨v.x + n, v.y + n, v.z + n, scalar cond n v.z v.x v.y v.m⟩

/-- The stage for 2 bytes writes to `x`. -/
def pair3 (cond : U32) (v : Vars3) : Vars3 := ⟨v.x + 2, v.y + 2, v.z + 2, scalar cond 2 v.x v.x v.y v.m⟩

/-- The stage for 1 byte sets `y` once more, in place of `z`. -/
def last3 (cond : U32) (v : Vars3) : Vars3 := ⟨v.x + 1, v.z + 1, v.z, scalar cond 1 v.z v.x v.y v.m⟩

def OMoveEx3 (pz px py : Nat) (cond size : U32) (m : Machine Byte) : Option (Machine Byte) :=
  (stages (fun i v => vector3 cond 32 2 { v with x := px + i, y := py + i, z := pz + i }) (half3 cond)
    (stage3 cond 8) (stage3 cond 4) (pair3 cond) (last3 cond) Vars3.x px size ⟨px, py, pz, m⟩).map Vars3.m

/-- The two-operand form writes the `size` bytes of `y` to `x` if `cond` is not zero, and nothing else. -/
def Moves2 (px py : Nat) (cond size : U32) (m : Machine Byte) : Prop :=
  ∃ m', OMoveEx2 px py cond size m = some m' ∧
    m'.mem = if cond = 0 then m.mem else copy m.mem px m.mem py size.val

/-- The three-operand form writes the `size` bytes of `x` or `y` to `z`, and nothing else. -/
def Moves3 (pz px py : Nat) (cond size : U32) (m : Machine Byte) : Prop :=
  ∃ m', OMoveEx3 pz px py cond size m = some m' ∧
    m'.mem = copy m.mem pz m.mem (if cond = 0 then py else px) size.val

def Same (mem : Nat → Byte) (p q i j : Nat) : Prop := ∀ k, i ≤ k → k < j → mem (p + k) = mem (q + k)

/-! ## The pieces -/

theorem wordBytes_eq_zero_iff (w : U32) : (∀ b ∈ wordBytes w, b = 0) ↔ w = 0 := by
  simp only [wordBytes, List.forall_mem_cons, List.not_mem_nil, false_imp_iff, implies_true, and_true, Fin.ext_iff,
    toByte_val, Fin.val_zero]
  omega

theorem land_mask (size : U32) : size.val &&& 0xFFFFFFE0 = size.val / 32 * 32 := by
  have hmask : (0xFFFFFFE0 : Nat) = (2 ^ 27 - 1) <<< 5 := rfl
  have hmul : size.val / 32 * 32 = size.val >>> 5 <<< 5 := by
    rw [Nat.shiftRight_eq_div_pow, Nat.shiftLeft_eq]
  rw [hmask, hmul]
  apply Nat.eq_of_testBit_eq
  intro i
  rw [Nat.testBit_and, Nat.testBit_shiftLeft, Nat.testBit_shiftLeft, Nat.testBit_shiftRight, Nat.testBit_two_pow_sub_one]
  by_cases h5 : 5 ≤ i
  · rw [decide_eq_true h5, Bool.true_and, Bool.true_and, Nat.add_sub_cancel' h5]
    by_cases h32 : i < 32
    · rw [decide_eq_true (by omega), Bool.and_true]
    · have hlt : size.val < 2 ^ i := size.isLt.trans_le (Nat.pow_le_pow_right two_pos (not_lt.mp h32))
      rw [Nat.testBit_lt_two_pow hlt, Bool.false_and]
  · rw [decide_eq_false h5, Bool.false_and, Bool.false_and, Bool.and_false]

/-- The memory behind a choice, for the code `p` that loads the bytes at `a` and `b` and tests the word. -/
theorem exec_choose (args : Operands Byte) (n l : Nat) {p : List Instr} (hp : p.all Instr.straight = true)
    (m : Machine Byte) {c : Prop} [Decidable c] {d a b : Nat} (hr : (run args p m).r14 = d)
    (hmem : (run args p m).mem = m.mem) (h14 : (run args p m).ymm 14 = load m.mem a n)
    (h15 : (run args p m).ymm 15 = load m.mem b n) (hz : (run args p m).zf = true ↔ c) :
    (exec args (choose n l p) m).mem = copy m.mem d m.mem (if c then b else a) n := by
  have hexec : exec args (choose n l p) m = _ := exec_branch args hp rfl rfl rfl (by simp) m
  have htake : ∀ s, (load m.mem s n).take n = load m.mem s n := fun s => List.take_of_length_le (length_load _ _ _).le
  rw [hexec]
  simp only [hz]
  split_ifs
  · simp only [run_cons, run_nil, step, hr, hmem, h15, htake, store_load]
  · simp only [run_cons, run_nil, step, hr, hmem, h14, htake, store_load]

theorem vector2_mem (cond : U32) (n l : Nat) (v : Vars2) :
    (vector2 cond n l v).m.mem = copy v.m.mem v.x v.m.mem (if cond = 0 then v.x else v.y) n :=
  exec_choose _ n l rfl v.m rfl rfl rfl rfl (by simp [step, wordBytes_eq_zero_iff])

theorem vector3_mem (cond : U32) (n l : Nat) (v : Vars3) :
    (vector3 cond n l v).m.mem = copy v.m.mem v.z v.m.mem (if cond = 0 then v.y else v.x) n :=
  exec_choose _ n l rfl v.m rfl rfl rfl rfl (by simp [step, wordBytes_eq_zero_iff])

theorem scalar_mem (cond : U32) (n d a b : Nat) (m : Machine Byte) :
    (scalar cond n d a b m).mem = copy m.mem d m.mem (if cond = 0 then b else a) n := by
  unfold scalar OMove
  by_cases h : cond = 0
  · rw [if_pos h, if_neg (by simpa using h), store_load]
  · rw [if_neg h, if_pos (by simpa using h), store_load]

/-- Every stage is run for every size that is left. -/
theorem stages_eq {σ : Type*} (loop32 : Nat → σ → σ) (move16 move8 move4 move2 move1 : σ → σ) (x : σ → Nat) (px : Nat)
    {size : U32} (hs : size ≠ 0) (v : σ) :
    stages loop32 move16 move8 move4 move2 move1 x px size v =
      if 2147483648 ≤ size.val then none
      else
        let w := (List.range (size.val / 32)).foldl (fun v k => loop32 (32 * k) v) v
        let u := move1 (move2 (move4 (move8 (move16 w))))
        if size.val % 32 = 0 then some w
        else if size.val % 32 = 16 then some (move16 w)
        else if x u = px + size.val then some u else none := by
  have hs' : size.val ≠ 0 := fun h => hs (Fin.ext h)
  have hand : ∀ e, logicalAnd size.val (1 <<< e) = true := by
    intro e
    have hpos := Nat.two_pow_pos e
    rw [logicalAnd, Nat.one_shiftLeft, Bool.and_eq_true, bne_iff_ne, bne_iff_ne]
    exact ⟨hs', by omega⟩
  unfold stages
  simp only [land_mask, hand, if_true]
  rw [Nat.mul_div_cancel _ (by decide : 0 < 32)]
  by_cases hbig : 2147483648 ≤ size.val
  · rw [if_pos (by omega), if_pos hbig]
  · rw [if_neg (by omega), if_neg hbig]
    by_cases h0 : size.val % 32 = 0
    · rw [if_pos (by omega), if_pos h0]
    · rw [if_neg (by omega), if_neg h0]
      by_cases h16 : size.val % 32 = 16
      · rw [if_pos (by omega), if_pos h16]
      · rw [if_neg (by omega), if_neg h16]

/-- How the memory can end: `whole` for the multiples of 32, `half` for those and 16 bytes more, `rest` for 31 bytes, the one
other size that passes the assertion. -/
def outcome (size : Nat) (whole half rest : Nat → Byte) : Option (Nat → Byte) :=
  if 2147483648 ≤ size then none
  else if size % 32 = 0 then some whole
  else if size % 32 = 16 then some half
  else if size = 31 then some rest
  else none

theorem stages_outcome {σ : Type*} {loop32 : Nat → σ → σ} {move16 move8 move4 move2 move1 : σ → σ} {x : σ → Nat} {px : Nat}
    {size : U32} (hs : size ≠ 0) {v w u : σ} (mem : σ → Nat → Byte) {whole half rest : Nat → Byte}
    (hw : (List.range (size.val / 32)).foldl (fun v k => loop32 (32 * k) v) v = w)
    (hu : move1 (move2 (move4 (move8 (move16 w)))) = u) (hx : x u = px + 32 * (size.val / 32 - 1) + 31)
    (hwhole : size.val % 32 = 0 → mem w = whole) (hhalf : size.val % 32 = 16 → mem (move16 w) = half)
    (hrest : size.val = 31 → mem u = rest) :
    (stages loop32 move16 move8 move4 move2 move1 x px size v).map mem = outcome size.val whole half rest := by
  rw [stages_eq _ _ _ _ _ _ _ _ hs, hw]
  dsimp only
  rw [hu, hx]
  unfold outcome
  by_cases hbig : 2147483648 ≤ size.val
  · rw [if_pos hbig, if_pos hbig, Option.map_none]
  rw [if_neg hbig, if_neg hbig]
  by_cases h0 : size.val % 32 = 0
  · rw [if_pos h0, if_pos h0, Option.map_some, hwhole h0]
  rw [if_neg h0, if_neg h0]
  by_cases h16 : size.val % 32 = 16
  · rw [if_pos h16, if_pos h16, Option.map_some, hhalf h16]
  rw [if_neg h16, if_neg h16]
  by_cases h31 : size.val = 31
  · rw [if_pos h31, if_pos (by omega), Option.map_some, hrest h31]
  · rw [if_neg h31, if_neg (by omega), Option.map_none]

/-- When the memory ends as it does for the multiples of 32. -/
theorem outcome_eq_whole_iff {size : Nat} {whole half rest : Nat → Byte} {P Q : Prop} (h16 : size = 16 → half = whole)
    (hP : size % 32 = 16 → size ≠ 16 → (half = whole ↔ P)) (hQ : size = 31 → (rest = whole ↔ Q)) :
    outcome size whole half rest = some whole ↔
      size < 2147483648 ∧ (size % 32 = 0 ∨ size = 16 ∨ size % 32 = 16 ∧ P ∨ size = 31 ∧ Q) := by
  unfold outcome
  by_cases hbig : 2147483648 ≤ size
  · rw [if_pos hbig]
    exact iff_of_false (Option.some_ne_none _).symm (by omega)
  rw [if_neg hbig, and_iff_right (not_le.mp hbig)]
  by_cases hm0 : size % 32 = 0
  · rw [if_pos hm0]
    exact iff_of_true rfl (.inl hm0)
  rw [if_neg hm0, or_iff_right hm0]
  by_cases hm16 : size % 32 = 16
  · rw [if_pos hm16, Option.some.injEq]
    by_cases hs : size = 16
    · exact iff_of_true (h16 hs) (.inl hs)
    · have hne : size ≠ 31 := by omega
      rw [hP hm16 hs, or_iff_right hs, and_iff_right hm16, or_iff_left fun h => hne h.1]
  rw [if_neg hm16, or_iff_right (show size ≠ 16 by omega), or_iff_right fun h => hm16 h.1]
  by_cases h31 : size = 31
  · rw [if_pos h31, Option.some.injEq, hQ h31, and_iff_right h31]
  · rw [if_neg h31]
    exact iff_of_false (Option.some_ne_none _).symm fun h => h31 h.1

/-- The stage for 16 bytes goes on if the loop was not run, and else moves some bytes again. -/
theorem copy_half {mem mem' : Nat → Byte} {d s d' s' q : Nat} (hmem : mem' = copy mem d mem s (32 * q))
    (hd : d' = d + 32 * (q - 1)) (hs : s' = s + 32 * (q - 1)) (h : d = s ∨ Apart d s (32 * q + 16)) :
    copy mem' d' mem' s' 16 = copy mem d mem s (if q = 0 then 16 else 32 * q) := by
  have h' : d = s ∨ Apart d s (32 * q) := h.imp_right (·.mono (by omega))
  by_cases h0 : q = 0
  · subst h0
    rw [if_pos rfl]
    exact (copy_add hmem hd hs h).trans (by rw [Nat.mul_zero, Nat.zero_add])
  · rw [if_neg h0]
    exact copy_again hmem hd hs h' (by omega)

theorem length_half {size : Nat} (h : size % 32 = 16) :
    (if size / 32 = 0 then 16 else 32 * (size / 32)) = if size = 16 then 16 else size - 16 := by
  split_ifs <;> omega

/-! ## The two-operand form -/

section Two
variable (px py : Nat) (cond : U32) (m : Machine Byte)

/-- Where the vector moves of the two-operand form take their bytes. -/
def source2 : Nat := if cond = 0 then px else py

theorem source2_apart {n : Nat} (h : Apart px py n) : px = source2 px py cond ∨ Apart px (source2 px py cond) n := by
  unfold source2
  split_ifs
  · exact .inl rfl
  · exact .inr h

/-- The loop moves `32 * q` bytes, and ends at the last 32 of them. -/
theorem loop2 {q : Nat} (h : Apart px py (32 * q)) :
    ∃ w : Vars2, (List.range q).foldl (fun v k => vector2 cond 32 0 { v with x := px + 32 * k, y := py + 32 * k })
        ⟨px, py, m⟩ = w ∧
      w.x = px + 32 * (q - 1) ∧ w.y = py + 32 * (q - 1) ∧
      w.m.mem = copy m.mem px m.mem (source2 px py cond) (32 * q) := by
  induction q with
  | zero => exact ⟨_, rfl, rfl, rfl, (copy_zero _ _ _ _).symm⟩
  | succ q ih =>
    obtain ⟨w, hw, -, -, hmem⟩ := ih (h.mono (by omega))
    refine ⟨_, rfl, ?_⟩
    rw [List.range_succ, List.foldl_append, List.foldl_cons, List.foldl_nil, hw, vector2_mem]
    exact ⟨rfl, rfl, copy_add hmem rfl (ite_add ..).symm (source2_apart px py cond h)⟩

end Two

theorem stage2_mem (cond : U32) (n : Nat) (v : Vars2) :
    (stage2 cond n v).m.mem = copy v.m.mem v.x v.m.mem (if cond = 0 then v.y else v.x) n :=
  scalar_mem cond n v.x v.x v.y v.m

def scalars2 (cond : U32) (v : Vars2) : Vars2 := stage2 cond 1 (stage2 cond 2 (stage2 cond 4 (stage2 cond 8 v)))

/-- The memory behind the last four stages: they move 15 bytes, from where they should not. -/
def tail2 (mem : Nat → Byte) (px py : Nat) (cond : U32) : Nat → Byte :=
  copy mem (px + 16) mem (if cond = 0 then py + 16 else px + 16) 15

theorem scalars2_mem {px py : Nat} (cond : U32) {v : Vars2} (hx : v.x = px + 16) (hy : v.y = py + 16) (h : Apart px py 31) :
    (scalars2 cond v).m.mem = tail2 v.m.mem px py cond := by
  have hapart : v.x = (if cond = 0 then v.y else v.x) ∨ Apart v.x (if cond = 0 then v.y else v.x) 15 := by
    unfold Apart at *
    split_ifs
    · omega
    · exact .inl rfl
  have hsource : ∀ n, (if cond = 0 then v.y + n else v.x + n) = (if cond = 0 then v.y else v.x) + n :=
    fun n => (ite_add ..).symm
  have h8 := stage2_mem cond 8 v
  have h4 := (stage2_mem cond 4 _).trans (copy_add h8 rfl (hsource 8) (hapart.imp_right (·.mono (by decide))))
  have h2 := (stage2_mem cond 2 _).trans (copy_add h4 rfl (hsource 12) (hapart.imp_right (·.mono (by decide))))
  have h1 := (stage2_mem cond 1 _).trans (copy_add h2 rfl (hsource 14) (hapart.imp_right (·.mono (by decide))))
  rw [scalars2, h1, hx, hy]
  rfl

theorem half2_mem {px py : Nat} {cond : U32} {mem : Nat → Byte} {q : Nat} {v : Vars2} (hx : v.x = px + 32 * (q - 1))
    (hy : v.y = py + 32 * (q - 1)) (hmem : v.m.mem = copy mem px mem (source2 px py cond) (32 * q))
    (h : Apart px py (32 * q + 16)) :
    (half2 cond v).m.mem = copy mem px mem (source2 px py cond) (if q = 0 then 16 else 32 * q) := by
  have hsource : (if cond = 0 then v.x else v.y) = source2 px py cond + 32 * (q - 1) := by
    rw [hx, hy]
    exact (ite_add ..).symm
  rw [half2, vector2_mem]
  exact copy_half hmem hx hsource (source2_apart px py cond h)

/-- What the two-operand form leaves in memory, if it returns. -/
theorem OMoveEx2_mem {px py : Nat} {cond size : U32} (hs : size ≠ 0) (h : Apart px py size.val) (m : Machine Byte) :
    (OMoveEx2 px py cond size m).map Machine.mem =
      outcome size.val (copy m.mem px m.mem (source2 px py cond) size.val)
        (copy m.mem px m.mem (source2 px py cond) (if size.val = 16 then 16 else size.val - 16))
        (tail2 (copy m.mem px m.mem (source2 px py cond) 16) px py cond) := by
  obtain ⟨w, hw, hx, hy, hmem⟩ := loop2 px py cond m (q := size.val / 32) (h.mono (by omega))
  unfold OMoveEx2
  rw [Option.map_map]
  refine stages_outcome hs _ hw rfl (congrArg (· + 31) hx) (fun h0 => ?_) (fun h16 => ?_) fun h31 => ?_
  · have hlen : 32 * (size.val / 32) = size.val := by omega
    exact hmem.trans (by rw [hlen])
  · exact (half2_mem hx hy hmem (h.mono (by omega))).trans (by rw [length_half h16])
  · have hq : size.val / 32 = 0 := by omega
    have hhalf := half2_mem hx hy hmem (h.mono (by omega))
    rw [if_pos hq] at hhalf
    rw [hq] at hx hy
    rw [← hhalf]
    exact scalars2_mem cond (congrArg (· + 16) hx) (congrArg (· + 16) hy) (h31 ▸ h)

/-- When the two-operand form moves what it should. -/
def Fits2 (px py : Nat) (cond size : U32) (m : Machine Byte) : Prop :=
  size.val < 2147483648 ∧
    (size.val % 32 = 0 ∨ size.val = 16 ∨
      size.val % 32 = 16 ∧ (cond = 0 ∨ Same m.mem px py (size.val - 16) size.val) ∨
      size.val = 31 ∧ Same m.mem px py 16 31)

theorem target2_eq (px py : Nat) (cond : U32) (mem : Nat → Byte) (n : Nat) :
    (if cond = 0 then mem else copy mem px mem py n) = copy mem px mem (source2 px py cond) n := by
  unfold source2
  split_ifs
  · exact (copy_eq_self fun _ _ => rfl).symm
  · rfl

theorem same_source2_iff (px py : Nat) (cond : U32) (mem : Nat → Byte) (i j : Nat) :
    Same mem px (source2 px py cond) i j ↔ cond = 0 ∨ Same mem px py i j := by
  unfold source2
  split_ifs with h
  · exact iff_of_true (fun _ _ _ => rfl) (.inl h)
  · exact (or_iff_right h).symm

theorem same_shift_iff {mem : Nat → Byte} {p q i n : Nat} :
    Same mem p q i (i + n) ↔ ∀ k, 0 ≤ k → k < n → mem (p + i + k) = mem (q + i + k) := by
  constructor
  · intro h k _ hk
    rw [Nat.add_assoc, Nat.add_assoc]
    exact h (i + k) (by omega) (by omega)
  · intro h k hi hk
    obtain ⟨j, rfl⟩ := Nat.exists_eq_add_of_le hi
    rw [← Nat.add_assoc, ← Nat.add_assoc]
    exact h j (by omega) (by omega)

/-- The last stages take the other operand: they do no harm if it holds the same bytes. -/
theorem tail2_eq_iff (px py : Nat) (cond : U32) (mem : Nat → Byte) :
    tail2 (copy mem px mem (source2 px py cond) 16) px py cond = copy mem px mem (source2 px py cond) 31 ↔
      Same mem px py 16 31 := by
  unfold source2 tail2
  by_cases h : cond = 0
  · have hself : ∀ n, copy mem px mem px n = mem := fun n => copy_eq_self fun _ _ => rfl
    have hiff := copy_eq_copy_iff mem (d := px + 16) (s := py + 16) (Nat.zero_le 15)
    rw [copy_zero] at hiff
    rw [if_pos h, if_pos h, hself, hself, eq_comm, hiff]
    exact same_shift_iff.symm
  · rw [if_neg h, if_neg h, copy_eq_self fun _ _ => rfl]
    exact copy_eq_copy_iff mem (by decide)

theorem moves2_iff {px py : Nat} {cond size : U32} (hs : size ≠ 0) (h : Apart px py size.val) (m : Machine Byte) :
    Moves2 px py cond size m ↔ Fits2 px py cond size m := by
  have hmoves : Moves2 px py cond size m ↔
      (OMoveEx2 px py cond size m).map Machine.mem = some (copy m.mem px m.mem (source2 px py cond) size.val) := by
    rw [Option.map_eq_some_iff, ← target2_eq]
    rfl
  rw [hmoves, OMoveEx2_mem hs h]
  refine outcome_eq_whole_iff (fun h16 => ?_) (fun _ hne => ?_) fun h31 => ?_
  · rw [if_pos h16, h16]
  · rw [if_neg hne, copy_eq_copy_iff _ (Nat.sub_le _ _), ← Same, same_source2_iff]
  · rw [h31, tail2_eq_iff]

/-! ## The three-operand form -/

section Three
variable (px py : Nat) (cond : U32)

def source3 : Nat := if cond = 0 then py else px

theorem source3_apart {pz n : Nat} (hx : Apart pz px n) (hy : Apart pz py n) : Apart pz (source3 px py cond) n := by
  unfold source3
  split_ifs
  · exact hy
  · exact hx

theorem loop3 (m : Machine Byte) {pz q : Nat} (h : Apart pz (source3 px py cond) (32 * q)) :
    ∃ w : Vars3, (List.range q).foldl
        (fun v k => vector3 cond 32 2 { v with x := px + 32 * k, y := py + 32 * k, z := pz + 32 * k }) ⟨px, py, pz, m⟩ = w ∧
      w.x = px + 32 * (q - 1) ∧ w.y = py + 32 * (q - 1) ∧ w.z = pz + 32 * (q - 1) ∧
      w.m.mem = copy m.mem pz m.mem (source3 px py cond) (32 * q) := by
  induction q with
  | zero => exact ⟨_, rfl, rfl, rfl, rfl, (copy_zero _ _ _ _).symm⟩
  | succ q ih =>
    obtain ⟨w, hw, -, -, -, hmem⟩ := ih (h.mono (by omega))
    refine ⟨_, rfl, ?_⟩
    rw [List.range_succ, List.foldl_append, List.foldl_cons, List.foldl_nil, hw, vector3_mem]
    exact ⟨rfl, rfl, rfl, copy_add hmem rfl (ite_add ..).symm (.inr h)⟩

end Three

theorem half3_mem {px py pz : Nat} {cond : U32} {mem : Nat → Byte} {q : Nat} {v : Vars3} (hx : v.x = px + 32 * (q - 1))
    (hy : v.y = py + 32 * (q - 1)) (hz : v.z = pz + 32 * (q - 1))
    (hmem : v.m.mem = copy mem pz mem (source3 px py cond) (32 * q)) (h : Apart pz (source3 px py cond) (32 * q + 16)) :
    (half3 cond v).m.mem = copy mem pz mem (source3 px py cond) (if q = 0 then 16 else 32 * q) := by
  have hsource : (if cond = 0 then v.y else v.x) = source3 px py cond + 32 * (q - 1) := by
    rw [hx, hy]
    exact (ite_add ..).symm
  rw [half3, vector3_mem]
  exact copy_half hmem hz hsource (.inr h)

theorem stage3_mem (cond : U32) (n : Nat) (v : Vars3) :
    (stage3 cond n v).m.mem = copy v.m.mem v.z v.m.mem (source3 v.x v.y cond) n :=
  scalar_mem cond n v.z v.x v.y v.m

theorem pair3_mem (cond : U32) (v : Vars3) :
    (pair3 cond v).m.mem = copy v.m.mem v.x v.m.mem (source3 v.x v.y cond) 2 :=
  scalar_mem cond 2 v.x v.x v.y v.m

theorem last3_mem (cond : U32) (v : Vars3) :
    (last3 cond v).m.mem = copy v.m.mem v.z v.m.mem (source3 v.x v.y cond) 1 :=
  scalar_mem cond 1 v.z v.x v.y v.m

def tail3 (mem : Nat → Byte) (pz px s : Nat) : Nat → Byte :=
  let mem := copy mem (px + 28) mem (s + 28) 2
  copy mem (pz + 30) mem (s + 30) 1

def scalars3 (cond : U32) (v : Vars3) : Vars3 := last3 cond (pair3 cond (stage3 cond 4 (stage3 cond 8 v)))

theorem scalars3_mem {px py pz : Nat} {cond : U32} {mem : Nat → Byte} {v : Vars3} (hx : v.x = px + 16) (hy : v.y = py + 16)
    (hz : v.z = pz + 16) (hmem : v.m.mem = copy mem pz mem (source3 px py cond) 16)
    (h : Apart pz (source3 px py cond) 31) :
    (scalars3 cond v).m.mem = tail3 (copy mem pz mem (source3 px py cond) 28) pz px (source3 px py cond) := by
  have hsource : ∀ n, source3 (v.x + n) (v.y + n) cond = source3 px py cond + (16 + n) := by
    intro n
    rw [hx, hy, Nat.add_assoc, Nat.add_assoc]
    exact (ite_add ..).symm
  have h8 := (stage3_mem cond 8 v).trans (copy_add hmem hz (hsource 0) (.inr (h.mono (by decide))))
  have h4 := (stage3_mem cond 4 _).trans (copy_add h8 (congrArg (· + 8) hz) (hsource 8) (.inr (h.mono (by decide))))
  have hx28 : (stage3 cond 4 (stage3 cond 8 v)).x = px + 28 := congrArg (· + 12) hx
  have hz30 : (pair3 cond (stage3 cond 4 (stage3 cond 8 v))).z = pz + 30 := congrArg (· + 14) hz
  have hs28 : source3 (stage3 cond 4 (stage3 cond 8 v)).x (stage3 cond 4 (stage3 cond 8 v)).y cond =
      source3 px py cond + 28 := hsource 12
  have hs30 : source3 (pair3 cond (stage3 cond 4 (stage3 cond 8 v))).x
      (pair3 cond (stage3 cond 4 (stage3 cond 8 v))).y cond = source3 px py cond + 30 := hsource 14
  rw [scalars3, last3_mem, pair3_mem, h4, hz30, hs28, hs30, hx28]
  rfl

/-- What the three-operand form leaves in memory, if it returns. -/
theorem OMoveEx3_mem {pz px py : Nat} {cond size : U32} (hs : size ≠ 0) (h : Apart pz (source3 px py cond) size.val)
    (m : Machine Byte) :
    (OMoveEx3 pz px py cond size m).map Machine.mem =
      outcome size.val (copy m.mem pz m.mem (source3 px py cond) size.val)
        (copy m.mem pz m.mem (source3 px py cond) (if size.val = 16 then 16 else size.val - 16))
        (tail3 (copy m.mem pz m.mem (source3 px py cond) 28) pz px (source3 px py cond)) := by
  obtain ⟨w, hw, hx, hy, hz, hmem⟩ := loop3 px py cond m (q := size.val / 32) (h.mono (by omega))
  unfold OMoveEx3
  rw [Option.map_map]
  refine stages_outcome hs _ hw rfl (congrArg (· + 31) hx) (fun h0 => ?_) (fun h16 => ?_) fun h31 => ?_
  · have hlen : 32 * (size.val / 32) = size.val := by omega
    exact hmem.trans (by rw [hlen])
  · exact (half3_mem hx hy hz hmem (h.mono (by omega))).trans (by rw [length_half h16])
  · have hq : size.val / 32 = 0 := by omega
    have hhalf := half3_mem hx hy hz hmem (h.mono (by omega))
    rw [if_pos hq] at hhalf
    rw [hq] at hx hy hz
    exact scalars3_mem (v := half3 cond w) (congrArg (· + 16) hx) (congrArg (· + 16) hy) (congrArg (· + 16) hz) hhalf
      (h31 ▸ h)

def Fits3 (pz px py : Nat) (cond size : U32) (m : Machine Byte) : Prop :=
  size.val < 2147483648 ∧
    (size.val % 32 = 0 ∨ size.val = 16 ∨
      size.val % 32 = 16 ∧ Same m.mem pz (if cond = 0 then py else px) (size.val - 16) size.val ∨
      size.val = 31 ∧ Same m.mem pz (if cond = 0 then py else px) 28 30 ∧ (cond = 0 → Same m.mem px py 28 30))

theorem same_source3_iff (px py : Nat) (cond : U32) (mem : Nat → Byte) (i j : Nat) :
    Same mem px (source3 px py cond) i j ↔ (cond = 0 → Same mem px py i j) := by
  unfold source3
  split_ifs with h
  · exact (imp_iff_right h).symm
  · exact iff_of_true (fun _ _ _ => rfl) fun h' => absurd h' h

/-- The last two stages leave what they should if the two bytes at `z` that are left out, and the two bytes at `x` that are
written, hold the right bytes before. -/
theorem tail3_eq_iff {mem : Nat → Byte} {pz px s : Nat} (hx : Apart pz px 31) (hs : Apart pz s 31) :
    tail3 (copy mem pz mem s 28) pz px s = copy mem pz mem s 31 ↔ Same mem pz s 28 30 ∧ Same mem px s 28 30 := by
  have hx' := hx
  have hs' := hs
  unfold Apart at hx' hs'
  unfold tail3
  constructor
  · intro h
    refine ⟨fun k hk hlt => ?_, fun k hk hlt => ?_⟩
    · have hval := congrFun h (pz + k)
      rwa [copy_of_outside (by omega), copy_of_outside (by omega), copy_of_outside (by omega),
        copy_of_inside (by omega)] at hval
    · obtain ⟨j, rfl⟩ := Nat.exists_eq_add_of_le hk
      have hval := congrFun h (px + (28 + j))
      rw [copy_of_outside (by omega), ← Nat.add_assoc, copy_of_inside (by omega), copy_of_outside (by omega),
        copy_of_outside (by omega)] at hval
      rw [← Nat.add_assoc, ← Nat.add_assoc]
      exact hval.symm
  · rintro ⟨hz, hsame⟩
    have hpair : ∀ k < 2, copy mem pz mem s 28 (px + 28 + k) = copy mem pz mem s 28 (s + 28 + k) := by
      intro k hk
      rw [copy_of_outside (by omega), copy_of_outside (by omega), Nat.add_assoc, Nat.add_assoc]
      exact hsame (28 + k) (by omega) (by omega)
    have h30 : copy mem pz mem s 28 = copy mem pz mem s 30 := (copy_eq_copy_iff mem (by decide)).mpr hz
    rw [copy_eq_self hpair]
    exact copy_add h30 rfl rfl (.inr hs)

theorem moves3_iff {pz px py : Nat} {cond size : U32} (hs : size ≠ 0) (hx : Apart pz px size.val)
    (hy : Apart pz py size.val) (m : Machine Byte) : Moves3 pz px py cond size m ↔ Fits3 pz px py cond size m := by
  have h := source3_apart px py cond hx hy
  have hmoves : Moves3 pz px py cond size m ↔
      (OMoveEx3 pz px py cond size m).map Machine.mem = some (copy m.mem pz m.mem (source3 px py cond) size.val) := by
    rw [Option.map_eq_some_iff]
    rfl
  rw [hmoves, OMoveEx3_mem hs h]
  refine outcome_eq_whole_iff (fun h16 => ?_) (fun _ hne => ?_) fun h31 => ?_
  · rw [if_pos h16, h16]
  · rw [if_neg hne, copy_eq_copy_iff _ (Nat.sub_le _ _)]
    rfl
  · rw [h31] at hx h
    rw [h31, tail3_eq_iff hx h, same_source3_iff]
    rfl

/-! ## Both forms -/

/-- Bytes that differ from one 256 to the next. -/
def ascending : Machine Byte where
  r14 := 0
  eax := []
  zf := false
  ymm := fun _ => []
  mem := toByte

/-- **The general `OMoveEx`.** The two forms move what they should exactly for the multiples of 32 and 16, and for
`32 * q + 16` and 31 bytes if the bytes that are left out or written in error are the right ones before. -/
theorem OMoveEx_general_iff {size : U32} (hs : size ≠ 0) (cond : U32) (m : Machine Byte) :
    (∀ {px py : Nat}, Apart px py size.val → (Moves2 px py cond size m ↔ Fits2 px py cond size m)) ∧
    ∀ {pz px py : Nat}, Apart pz px size.val → Apart pz py size.val →
      (Moves3 pz px py cond size m ↔ Fits3 pz px py cond size m) :=
  ⟨fun h => moves2_iff hs h m, fun hx hy => moves3_iff hs hx hy m⟩

theorem OMoveEx_general_iff_48 :
    (Moves2 0 64 1 48 ascending ↔ Fits2 0 64 1 48 ascending) ∧
      (Moves3 128 0 64 1 48 ascending ↔ Fits3 128 0 64 1 48 ascending) :=
  have h := OMoveEx_general_iff (show (48 : U32) ≠ 0 by decide) 1 ascending
  ⟨h.1 (.inl (by decide)), h.2 (.inr (by decide)) (.inr (by decide))⟩

/-- The last 16 of 48 bytes are not moved. -/
theorem OMoveEx_general_drops :
    ¬ (∀ size : U32, size ≠ 0 → ∀ (cond : U32) (m : Machine Byte),
      (∀ px py, Apart px py size.val → Moves2 px py cond size m) ∧
        ∀ pz px py, Apart pz px size.val → Apart pz py size.val → Moves3 pz px py cond size m) := by
  intro hall
  have hapart : Apart 0 64 (48 : U32).val := .inl (by decide)
  have hmoves := (hall 48 (by decide) 1 ascending).1 0 64 hapart
  obtain ⟨-, h | h | ⟨-, h | h⟩ | ⟨h, -⟩⟩ := (moves2_iff (by decide) hapart ascending).mp hmoves
  · exact absurd h (by decide)
  · exact absurd h (by decide)
  · exact absurd h (by decide)
  · exact absurd (h 32 (by decide) (by decide)) (by decide)
  · exact absurd h (by decide)

end FOSketch.Asm
