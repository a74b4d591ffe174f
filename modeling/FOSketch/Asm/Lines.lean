import FOSketch.Asm.Faster
import FOSketch.Asm.MaxSet

/-!
# Cache lines, and arrays of blocks

Who watches the memory bus sees cache lines, and not how often a line is accessed in a row (`seen`). A log that repeats a
line now and then shows the same as the log without (`Logs.seen_eq`).

An array of 64-byte blocks is a list of blocks (`blocks`); a loop that writes block `i` in turn `i` is a map
(`foldl_blocks`).
-/

namespace FOSketch.Asm

open Memory

/-! ## Cache lines -/

def Access.lines : Access → List Nat
  | .read a n | .write a n =>
    if n = 0 then [] else List.range' (a / CACHE_LINE) ((a + n - 1) / CACHE_LINE + 1 - a / CACHE_LINE)

/-- The lines that are accessed one after the other, without repeats. -/
def seen (log : List Access) : List Nat := (log.flatMap Access.lines).destutter (· ≠ ·)

theorem lines_within {line k n : Nat} (hn : 0 < n) (h : k + n ≤ 64) :
    (Access.read (line * 64 + k) n).lines = [line] ∧ (Access.write (line * 64 + k) n).lines = [line] := by
  have hfirst : (line * 64 + k) / CACHE_LINE = line := by
    unfold CACHE_LINE
    omega
  have hlast : (line * 64 + k + n - 1) / CACHE_LINE = line := by
    unfold CACHE_LINE
    omega
  constructor
  · rw [Access.lines, if_neg (by omega), hfirst, hlast, Nat.add_sub_cancel_left]
    rfl
  · rw [Access.lines, if_neg (by omega), hfirst, hlast, Nat.add_sub_cancel_left]
    rfl

/-- The first list is the second one with some elements repeated. -/
inductive Stutters {α : Type*} : List α → List α → Prop
  | nil : Stutters [] []
  | cons {xs ys : List α} (x : α) : Stutters xs ys → Stutters (x :: xs) (x :: ys)
  | again {xs ys : List α} (x : α) : Stutters (x :: xs) ys → Stutters (x :: x :: xs) ys

namespace Stutters
variable {α : Type*} {xs ys xs' ys' : List α}

theorem refl (xs : List α) : Stutters xs xs := by
  induction xs with
  | nil => exact nil
  | cons x xs ih => exact cons x ih

theorem append (h : Stutters xs ys) (h' : Stutters xs' ys') : Stutters (xs ++ xs') (ys ++ ys') := by
  induction h with
  | nil => exact h'
  | cons x _ ih => exact cons x ih
  | again x _ ih => exact again x ih

theorem destutter_eq [DecidableEq α] (h : Stutters xs ys) : xs.destutter (· ≠ ·) = ys.destutter (· ≠ ·) := by
  have haux : ∀ {xs ys : List α}, Stutters xs ys → ∀ a, xs.destutter' (· ≠ ·) a = ys.destutter' (· ≠ ·) a := by
    intro xs ys h
    induction h with
    | nil => exact fun _ => rfl
    | cons x _ ih =>
      intro a
      rw [List.destutter'_cons, List.destutter'_cons, ih, ih]
    | again x _ ih =>
      intro a
      rw [← ih a]
      by_cases hax : a = x
      · subst hax
        exact List.destutter'_cons_neg _ (not_not.mpr rfl)
      · rw [List.destutter'_cons, if_pos hax, List.destutter'_cons_neg _ (not_not.mpr rfl), List.destutter'_cons, if_pos hax]
  induction h with
  | nil => rfl
  | cons x h _ => exact haux h x
  | again x _ ih =>
    rw [← ih]
    exact List.destutter'_cons_neg _ (not_not.mpr rfl)

end Stutters

/-- What `t'` has accessed since `t` shows the lines of `log`. -/
def Logs (t t' : Logged) (log : List Access) : Prop :=
  ∃ real, t'.log = t.log ++ real ∧ Stutters (real.flatMap Access.lines) (log.flatMap Access.lines)

namespace Logs
variable {t t' t'' : Logged} {log log' : List Access}

theorem of_eq (h : t'.log = t.log ++ log) : Logs t t' log := ⟨log, h, .refl _⟩

theorem refl (t : Logged) : Logs t t [] := of_eq (List.append_nil _).symm

theorem trans (h : Logs t t' log) (h' : Logs t' t'' log') : Logs t t'' (log ++ log') := by
  obtain ⟨real, hreal, hst⟩ := h
  obtain ⟨real', hreal', hst'⟩ := h'
  refine ⟨real ++ real', by rw [hreal', hreal, List.append_assoc], ?_⟩
  rw [List.flatMap_append, List.flatMap_append]
  exact hst.append hst'

theorem seen_eq (h : Logs t t' log) : ∃ real, t'.log = t.log ++ real ∧ seen real = seen log := by
  obtain ⟨real, hreal, hst⟩ := h
  exact ⟨real, hreal, hst.destutter_eq⟩

end Logs

/-! ## Reading and writing -/

namespace Logged

def write (a : Nat) (l : List Byte) (t : Logged) : Logged :=
  ⟨{ t.m with mem := store t.m.mem a l }, t.log ++ [.write a l.length]⟩

def read (a n : Nat) (t : Logged) : Logged := { t with log := t.log ++ [.read a n] }

def memcpy (d s n : Nat) (t : Logged) : Logged :=
  ⟨{ t.m with mem := copy t.m.mem d t.m.mem s n }, t.log ++ [.read s n, .write d n]⟩

end Logged

def bidBytes (b : Bid) : List Byte := [toByte b.val, toByte (b.val / 256)]

theorem length_bidBytes (b : Bid) : (bidBytes b).length = 2 := rfl

def wordAt (mem : Nat → Byte) (a : Nat) : U32 :=
  Fin.ofNat 4294967296
    ((mem a).val + 256 * (mem (a + 1)).val + 65536 * (mem (a + 2)).val + 16777216 * (mem (a + 3)).val)

def itemAt (mem : Nat → Byte) (a : Nat) : Item := ⟨wordAt mem a, wordAt mem (a + 4)⟩

theorem itemAt_congr {mem mem' : Nat → Byte} {a : Nat} (h : ∀ k < 8, mem (a + k) = mem' (a + k)) :
    itemAt mem a = itemAt mem' a := by
  have h0 := h 0 (by decide)
  have h4 := h 4 (by decide)
  have h5 := h 5 (by decide)
  have h6 := h 6 (by decide)
  have h7 := h 7 (by decide)
  unfold itemAt wordAt
  rw [Nat.add_zero] at h0
  rw [h0, h 1 (by decide), h 2 (by decide), h 3 (by decide)]
  simp only [Nat.add_assoc]
  rw [h4, h5, h6, h7]

theorem blockAt_write_blockID (mem : Nat → Byte) (p : Nat) (b : Bid) :
    blockAt (store mem p (bidBytes b)) p = { blockAt mem p with blockID := b } := by
  have hout {k : Nat} (hk : 2 ≤ k) : store mem p (bidBytes b) (p + k) = mem (p + k) :=
    store_of_outside (.inr (Nat.add_le_add_left hk p))
  have h0 : store mem p (bidBytes b) p = toByte b.val := by simp [store, bidBytes]
  have h1 : store mem p (bidBytes b) (p + 1) = toByte (b.val / 256) := by simp [store, bidBytes]
  have hb := b.isLt
  have hid : toBid ((toByte b.val).val + 256 * (toByte (b.val / 256)).val) = b := by
    apply Fin.ext
    simp only [toBid_val, toByte_val]
    omega
  unfold blockAt
  rw [h0, h1, hid, hout le_rfl, hout (show 2 ≤ 3 by decide)]
  congr 1
  funext j
  have hj : 2 ≤ 4 + j.val := by omega
  rw [Nat.add_assoc, hout hj, ← Nat.add_assoc]

theorem blockAt_write_data {mem mem' : Nat → Byte} {p : Nat} {data : Fin 60 → Byte}
    (hdata : ∀ j, mem' (p + 4 + j.val) = data j) (hout : ∀ k, k < p + 4 → mem' k = mem k) :
    blockAt mem' p = { blockAt mem p with data := data } := by
  unfold blockAt
  rw [hout p (by omega), hout (p + 1) (by omega), hout (p + 2) (by omega), hout (p + 3) (by omega)]
  exact congrArg _ (funext hdata)

/-! ## Arrays of blocks -/

def blocks (mem : Nat → Byte) (p num : Nat) : List Block64 := (List.range num).map fun i => blockAt mem (p + i * 64)

@[simp] theorem length_blocks (mem : Nat → Byte) (p num : Nat) : (blocks mem p num).length = num := by
  rw [blocks, List.length_map, List.length_range]

theorem getElem?_blocks (mem : Nat → Byte) (p : Nat) {num i : Nat} (hi : i < num) :
    (blocks mem p num)[i]? = some (blockAt mem (p + i * 64)) := by
  rw [blocks, List.getElem?_map, List.getElem?_range hi, Option.map_some]

theorem blocks_congr {mem mem' : Nat → Byte} {p num : Nat} (h : ∀ k, p ≤ k → k < p + num * 64 → mem k = mem' k) :
    blocks mem p num = blocks mem' p num := by
  refine List.map_congr_left fun i hi => blockAt_congr fun k hk => h _ (by omega) ?_
  have := List.mem_range.mp hi
  omega

theorem blocks_add (mem : Nat → Byte) (p a b : Nat) :
    blocks mem p (a + b) = blocks mem p a ++ blocks mem (p + a * 64) b := by
  unfold blocks
  rw [List.range_add, List.map_append, List.map_map]
  congr 2
  funext i
  rw [Function.comp_apply, Nat.add_mul, Nat.add_assoc]

theorem blocks_cons (mem : Nat → Byte) (p num : Nat) :
    blocks mem p (num + 1) = blockAt mem p :: blocks mem (p + 64) num := by
  rw [Nat.add_comm num 1, blocks_add, Nat.one_mul]
  simp [blocks]

theorem blocks_take (mem : Nat → Byte) (p : Nat) {a b : Nat} (h : a ≤ b) : (blocks mem p b).take a = blocks mem p a := by
  obtain ⟨c, rfl⟩ := Nat.exists_eq_add_of_le h
  rw [blocks_add, List.take_left' (length_blocks _ _ _)]

theorem blocks_drop (mem : Nat → Byte) (p : Nat) {a b : Nat} (h : a ≤ b) :
    (blocks mem p b).drop a = blocks mem (p + a * 64) (b - a) := by
  obtain ⟨c, rfl⟩ := Nat.exists_eq_add_of_le h
  rw [blocks_add, List.drop_left' (length_blocks _ _ _), Nat.add_sub_cancel_left]

/-- What turn `i` of a loop over an array does: block `i` becomes its image, and the rest of memory is as before. -/
structure Turn (p num : Nat) (Fixed : (Nat → Byte) → Prop) (turn : Nat → Logged → Logged) (f : Nat → Block64 → Block64)
    (log : Nat → List Access) : Prop where
  block : ∀ i < num, ∀ t, Fixed t.m.mem → blockAt (turn i t).m.mem (p + i * 64) = f i (blockAt t.m.mem (p + i * 64))
  frame : ∀ i < num, ∀ t k, k < p + i * 64 ∨ p + i * 64 + 64 ≤ k → (turn i t).m.mem k = t.m.mem k
  log : ∀ i < num, ∀ t, (turn i t).log = t.log ++ log i
  fixed : ∀ {mem mem'}, Fixed mem → (∀ k, k < p ∨ p + num * 64 ≤ k → mem' k = mem k) → Fixed mem'

/-- A loop that writes each block at most once. -/
theorem foldl_blocks {p num : Nat} {Fixed : (Nat → Byte) → Prop} {turn : Nat → Logged → Logged}
    {f : Nat → Block64 → Block64} {log : Nat → List Access} (h : Turn p num Fixed turn f log) {is : List Nat}
    (hnodup : is.Nodup) (hlt : ∀ i ∈ is, i < num) (t : Logged) (ht : Fixed t.m.mem) :
    let t' := is.foldl (fun t i => turn i t) t
    (∀ i < num, blockAt t'.m.mem (p + i * 64) =
      if i ∈ is then f i (blockAt t.m.mem (p + i * 64)) else blockAt t.m.mem (p + i * 64)) ∧
      (∀ k, k < p ∨ p + num * 64 ≤ k → t'.m.mem k = t.m.mem k) ∧ t'.log = t.log ++ is.flatMap log := by
  induction is generalizing t with
  | nil => simp
  | cons i is ih =>
    obtain ⟨hi, hnodup⟩ := List.nodup_cons.mp hnodup
    have hnum : i < num := hlt i List.mem_cons_self
    have hout : ∀ k, k < p ∨ p + num * 64 ≤ k → (turn i t).m.mem k = t.m.mem k := fun k hk =>
      h.frame i hnum t k (by omega)
    obtain ⟨hblocks, hframe, hlog⟩ :=
      ih hnodup (fun j hj => hlt j (List.mem_cons_of_mem i hj)) (turn i t) (h.fixed ht hout)
    rw [List.foldl_cons]
    refine ⟨fun j hj => ?_, fun k hk => (hframe k hk).trans (hout k hk), ?_⟩
    · have hstep : blockAt (turn i t).m.mem (p + j * 64) =
          if j = i then f i (blockAt t.m.mem (p + j * 64)) else blockAt t.m.mem (p + j * 64) := by
        split_ifs with hji
        · rw [hji]
          exact h.block i hnum t ht
        · exact blockAt_congr fun k hk => h.frame i hnum t _ (by omega)
      rw [hblocks j hj, hstep]
      by_cases hji : j = i
      · subst hji
        rw [if_neg hi, if_pos rfl, if_pos List.mem_cons_self]
      · rw [if_neg hji]
        exact if_congr ⟨List.mem_cons_of_mem i, fun hmem => (List.mem_cons.mp hmem).resolve_left hji⟩ rfl rfl
    · rw [hlog, h.log i hnum, List.flatMap_cons, List.append_assoc]

end FOSketch.Asm
