import FOSketch.Memory

/-!
# Inline assembly

A machine for `asm` statements over memory operands: vector loads and stores through one pointer register, and jumps that
lead forward. `step` is one instruction, `exec` runs a statement.

* `foldl_turn_straight`, `foldl_turn_skipping` : code without jumps runs one instruction after the other, or is skipped on
  the way to a label;
* `exec_skip`, `exec_branch` : a jump over some code, and a choice between two pieces of code.
-/

namespace FOSketch.Asm

variable {α : Type*}

inductive Label where
  | L (n : Nat)
  | E (n : Nat)
  deriving DecidableEq

/-- The instructions, in the order of their operands (the last one is written). `load n v` and `store n v` are `VMOVDQU` of
`n` bytes between the vector register `v` and the memory at `r14`. -/
inductive Instr where
  | movPointer (k : Nat)
  | movWord (k : Nat)
  | add (c : Int)
  | load (n v : Nat)
  | store (n v : Nat)
  | vpmaxub (u v w : Nat)
  | test
  | nop
  | je (l : Label)
  | jmp (l : Label)
  | label (l : Label)
  deriving DecidableEq

/-- What the memory operands of a statement hold: the value of a pointer variable, and the four bytes from the address of
an operand on, which is what a move to `eax` loads. -/
structure Operands (α : Type*) where
  pointer : Nat → Nat
  word : Nat → List α

structure Machine (α : Type*) where
  r14 : Nat
  eax : List α
  zf : Bool
  ymm : Nat → List α
  mem : Nat → α

variable [Zero α] [DecidableEq α] [Max α]

def step (args : Operands α) (m : Machine α) : Instr → Machine α
  | .movPointer k => { m with r14 := args.pointer k }
  | .movWord k => { m with eax := args.word k }
  | .add c => { m with r14 := (m.r14 + c).toNat }
  | .load n v => { m with ymm := Function.update m.ymm v (Memory.load m.mem m.r14 n) }
  | .store n v => { m with mem := Memory.store m.mem m.r14 ((m.ymm v).take n) }
  | .vpmaxub u v w => { m with ymm := Function.update m.ymm w (List.zipWith max (m.ymm u) (m.ymm v)) }
  | .test => { m with zf := decide (∀ b ∈ m.eax, b = 0) }
  | .nop | .je _ | .jmp _ | .label _ => m

/-- The next instruction, while the machine may be on its way to a label. -/
def turn (args : Operands α) (s : Option Label × Machine α) (i : Instr) : Option Label × Machine α :=
  match s.1 with
  | some l => (if i = .label l then none else some l, s.2)
  | none =>
    match i with
    | .je l => (if s.2.zf then some l else none, s.2)
    | .jmp l => (some l, s.2)
    | i => (none, step args s.2 i)

def exec (args : Operands α) (p : List Instr) (m : Machine α) : Machine α := (p.foldl (turn args) (none, m)).2

/-- The instructions of `p`, none of which is a jump. -/
def run (args : Operands α) (p : List Instr) (m : Machine α) : Machine α := p.foldl (step args) m

def Instr.straight : Instr → Bool
  | .je _ | .jmp _ | .label _ => false
  | _ => true

@[simp] theorem run_nil (args : Operands α) (m : Machine α) : run args [] m = m := rfl

@[simp] theorem run_cons (args : Operands α) (i : Instr) (p : List Instr) (m : Machine α) :
    run args (i :: p) m = run args p (step args m i) := rfl

/-! ## One instruction -/

theorem turn_straight (args : Operands α) (m : Machine α) {i : Instr} (hi : i.straight = true) :
    turn args (none, m) i = (none, step args m i) := by
  cases i with
  | je l => exact absurd hi Bool.false_ne_true
  | jmp l => exact absurd hi Bool.false_ne_true
  | label l => exact absurd hi Bool.false_ne_true
  | _ => rfl

theorem turn_skipping (args : Operands α) (m : Machine α) {l : Label} {i : Instr} (hi : i ≠ .label l) :
    turn args (some l, m) i = (some l, m) :=
  Prod.ext (if_neg hi) rfl

theorem turn_arrived (args : Operands α) (m : Machine α) (l : Label) :
    turn args (some l, m) (.label l) = (none, m) :=
  Prod.ext (if_pos rfl) rfl

theorem turn_label (args : Operands α) (m : Machine α) (l : Label) : turn args (none, m) (.label l) = (none, m) := rfl

theorem turn_jmp (args : Operands α) (m : Machine α) (l : Label) : turn args (none, m) (.jmp l) = (some l, m) := rfl

theorem turn_je (args : Operands α) (m : Machine α) (l : Label) :
    turn args (none, m) (.je l) = (if m.zf then some l else none, m) := rfl

/-! ## A statement -/

theorem foldl_turn_straight (args : Operands α) {p : List Instr} (hp : p.all Instr.straight = true) (m : Machine α) :
    p.foldl (turn args) (none, m) = (none, run args p m) := by
  induction p generalizing m with
  | nil => rfl
  | cons i p ih =>
    rw [List.all_cons, Bool.and_eq_true] at hp
    rw [List.foldl_cons, turn_straight args m hp.1, ih hp.2, run_cons]

theorem foldl_turn_skipping (args : Operands α) {p : List Instr} (hp : p.all Instr.straight = true) (l : Label)
    (m : Machine α) : p.foldl (turn args) (some l, m) = (some l, m) := by
  induction p with
  | nil => rfl
  | cons i p ih =>
    rw [List.all_cons, Bool.and_eq_true] at hp
    have hi : i ≠ .label l := by
      rintro rfl
      exact absurd hp.1 Bool.false_ne_true
    rw [List.foldl_cons, turn_skipping args m hi, ih hp.2]

/-- Code that is skipped if the tested word is zero. -/
theorem exec_skip (args : Operands α) {p q r : List Instr} {l : Label} (hp : p.all Instr.straight = true)
    (hq : q.all Instr.straight = true) (hr : r.all Instr.straight = true) (m : Machine α) :
    exec args (p ++ .je l :: (q ++ .label l :: r)) m =
      run args r (if (run args p m).zf then run args p m else run args q (run args p m)) := by
  unfold exec
  rw [List.foldl_append, foldl_turn_straight args hp, List.foldl_cons, List.foldl_append, List.foldl_cons, turn_je]
  split_ifs
  · rw [foldl_turn_skipping args hq, turn_arrived, foldl_turn_straight args hr]
  · rw [foldl_turn_straight args hq, turn_label, foldl_turn_straight args hr]

/-- Two pieces of code, of which the second one runs if the tested word is zero. -/
theorem exec_branch (args : Operands α) {p q r t : List Instr} {l e : Label} (hp : p.all Instr.straight = true)
    (hq : q.all Instr.straight = true) (hr : r.all Instr.straight = true) (ht : t.all Instr.straight = true)
    (hle : l ≠ e) (m : Machine α) :
    exec args (p ++ .je l :: (q ++ .jmp e :: .label l :: (r ++ .label e :: t))) m =
      run args t (if (run args p m).zf then run args r (run args p m) else run args q (run args p m)) := by
  have hl : Instr.label l ≠ .label e := by simpa using hle
  have he : Instr.jmp e ≠ .label l := by simp
  unfold exec
  rw [List.foldl_append, foldl_turn_straight args hp, List.foldl_cons, List.foldl_append, List.foldl_cons, List.foldl_cons,
    List.foldl_append, List.foldl_cons, turn_je]
  split_ifs
  · rw [foldl_turn_skipping args hq, turn_skipping args _ he, turn_arrived, foldl_turn_straight args hr, turn_label,
      foldl_turn_straight args ht]
  · rw [foldl_turn_straight args hq, turn_jmp, turn_skipping args _ hl, foldl_turn_skipping args hr, turn_arrived,
      foldl_turn_straight args ht]

end FOSketch.Asm
