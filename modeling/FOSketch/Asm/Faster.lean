import FOSketch.Asm.MoveEx

/-!
# The `OMoveEx` that is built, and the exchanges of the sorters

The pair of `OMoveEx` under `OMOVEEX_FASTER` moves nothing below 16 bytes, 16 bytes at once, and all other sizes in steps of
32. The sorters exchange their elements with it (`OSwapEx`), or with `OMove` if these have 4 or 8 bytes. Every routine runs
on a machine with the `log` of its memory accesses, which depend on the addresses only.
-/

namespace FOSketch.Asm

open Memory

/-! ## Accesses -/

/-- An access to `n` bytes of memory. -/
inductive Access where
  | read (a n : Nat)
  | write (a n : Nat)
  deriving DecidableEq

/-- A machine and what it has accessed. -/
structure Logged where
  m : Machine Byte
  log : List Access

def turnAccess {α : Type*} (s : Option Label × Machine α) (i : Instr) : List Access :=
  match s.1, i with
  | none, .load n _ => [.read s.2.r14 n]
  | none, .store n _ => [.write s.2.r14 n]
  | _, _ => []

/-- The accesses of a statement through its pointer register. -/
def accesses (args : Operands Byte) : List Instr → Option Label × Machine Byte → List Access
  | [], _ => []
  | i :: p, s => turnAccess s i ++ accesses args p (turn args s i)

theorem accesses_append (args : Operands Byte) (p q : List Instr) (s : Option Label × Machine Byte) :
    accesses args (p ++ q) s = accesses args p s ++ accesses args q (p.foldl (turn args) s) := by
  induction p generalizing s with
  | nil => rfl
  | cons i p ih => rw [List.cons_append, accesses, ih, accesses, List.append_assoc, List.foldl_cons]

/-- A statement on a machine with its log. -/
def asm (args : Operands Byte) (p : List Instr) (t : Logged) : Logged :=
  ⟨exec args p t.m, t.log ++ accesses args p (none, t.m)⟩

/-- Whichever way a choice goes, it writes to the place that its pointer shows. -/
theorem accesses_choose (args : Operands Byte) (n l : Nat) {p : List Instr} (hp : p.all Instr.straight = true)
    (m : Machine Byte) :
    accesses args (choose n l p) (none, m) = accesses args p (none, m) ++ [.write (run args p m).r14 n] := by
  rw [choose, accesses_append, foldl_turn_straight args hp]
  generalize run args p m = m'
  cases hz : m'.zf with
  | true => simp [accesses, turnAccess, turn, hz]
  | false => simp [accesses, turnAccess, turn, step, hz]

/-! ## The two forms -/

namespace Faster

def move2 (cond : U32) (n l x y : Nat) : Logged → Logged :=
  asm ⟨fun k => if k = 0 then x else y, fun _ => wordBytes cond⟩
    (choose n l [.movPointer 1, .load n 14, .movPointer 0, .load n 15, .movWord 2, .test])

def move3 (cond : U32) (n l z x y : Nat) : Logged → Logged :=
  asm ⟨fun k => if k = 0 then z else if k = 1 then x else y, fun _ => wordBytes cond⟩
    (choose n l [.movPointer 1, .load n 14, .movPointer 2, .load n 15, .movPointer 0, .movWord 3, .test])

/-- The control flow of both forms, for the statement with 16 bytes and that with the 32 bytes from `i` on. `none` is the
overflow of the `int` counter `i`. -/
def stages (move16 : Logged → Logged) (loop32 : Nat → Logged → Logged) (size : U32) (t : Logged) : Option Logged :=
  if size.val < 16 then some t
  else if size.val = 16 then some (move16 t)
  else if 2147483648 ≤ (size.val + 31) / 32 * 32 then none
  else some ((List.range ((size.val + 31) / 32)).foldl (fun t k => loop32 (32 * k) t) t)

def OMoveEx2 (px py : Nat) (cond size : U32) : Logged → Option Logged :=
  stages (move2 cond 16 0 px py) (fun i => move2 cond 32 1 (px + i) (py + i)) size

def OMoveEx3 (pz px py : Nat) (cond size : U32) : Logged → Option Logged :=
  stages (move3 cond 16 2 pz px py) (fun i => move3 cond 32 3 (pz + i) (px + i) (py + i)) size

def moved (size : Nat) : Nat := if size < 16 then 0 else if size = 16 then 16 else (size + 31) / 32 * 32

/-- The bytes are moved in pieces of 16 or 32. -/
def pieces (size : Nat) (piece : Nat → Nat → List Access) : List Access :=
  if size < 16 then []
  else if size = 16 then piece 0 16
  else (List.range ((size + 31) / 32)).flatMap fun k => piece (32 * k) 32

def accesses2 (px py size : Nat) : List Access :=
  pieces size fun i n => [.read (py + i) n, .read (px + i) n, .write (px + i) n]

def accesses3 (pz px py size : Nat) : List Access :=
  pieces size fun i n => [.read (px + i) n, .read (py + i) n, .write (pz + i) n]

theorem move2_mem (cond : U32) (n l x y : Nat) (t : Logged) :
    (move2 cond n l x y t).m.mem = copy t.m.mem x t.m.mem (source2 x y cond) n :=
  vector2_mem cond n l ⟨x, y, t.m⟩

theorem move3_mem (cond : U32) (n l z x y : Nat) (t : Logged) :
    (move3 cond n l z x y t).m.mem = copy t.m.mem z t.m.mem (source3 x y cond) n :=
  vector3_mem cond n l ⟨x, y, z, t.m⟩

theorem move2_log (cond : U32) (n l x y : Nat) (t : Logged) :
    (move2 cond n l x y t).log = t.log ++ [.read y n, .read x n, .write x n] :=
  congrArg (t.log ++ ·) (accesses_choose _ n l rfl t.m)

theorem move3_log (cond : U32) (n l z x y : Nat) (t : Logged) :
    (move3 cond n l z x y t).log = t.log ++ [.read x n, .read y n, .write z n] :=
  congrArg (t.log ++ ·) (accesses_choose _ n l rfl t.m)

theorem foldl_moves {loop32 : Nat → Logged → Logged} {d s : Nat} {piece : Nat → Nat → List Access}
    (hmem : ∀ i t, (loop32 i t).m.mem = copy t.m.mem (d + i) t.m.mem (s + i) 32)
    (hlog : ∀ i t, (loop32 i t).log = t.log ++ piece i 32) (t : Logged) {q : Nat} (h : d = s ∨ Apart d s (32 * q)) :
    let t' := (List.range q).foldl (fun t k => loop32 (32 * k) t) t
    t'.m.mem = copy t.m.mem d t.m.mem s (32 * q) ∧
      t'.log = t.log ++ (List.range q).flatMap fun k => piece (32 * k) 32 := by
  induction q with
  | zero => simp
  | succ q ih =>
    obtain ⟨hmem', hlog'⟩ := ih (h.imp_right (·.mono (by omega)))
    rw [List.range_succ, List.foldl_append]
    constructor
    · exact (hmem _ _).trans (copy_add hmem' rfl rfl h)
    · simp [hlog, hlog', List.flatMap_append]

theorem stages_spec {move16 : Logged → Logged} {loop32 : Nat → Logged → Logged} {d s : Nat}
    {piece : Nat → Nat → List Access} (hmem16 : ∀ t, (move16 t).m.mem = copy t.m.mem d t.m.mem s 16)
    (hlog16 : ∀ t, (move16 t).log = t.log ++ piece 0 16)
    (hmem : ∀ i t, (loop32 i t).m.mem = copy t.m.mem (d + i) t.m.mem (s + i) 32)
    (hlog : ∀ i t, (loop32 i t).log = t.log ++ piece i 32) {size : U32} (hsize : size.val ≤ 2147483616) (t : Logged)
    (h : d = s ∨ Apart d s (moved size.val)) :
    ∃ t', stages move16 loop32 size t = some t' ∧ t'.m.mem = copy t.m.mem d t.m.mem s (moved size.val) ∧
      t'.log = t.log ++ pieces size.val piece := by
  unfold stages moved pieces at *
  by_cases hlt : size.val < 16
  · simp [if_pos hlt]
  by_cases h16 : size.val = 16
  · simp only [if_neg hlt, if_pos h16]
    exact ⟨_, rfl, hmem16 t, hlog16 t⟩
  · simp only [if_neg hlt, if_neg h16] at h ⊢
    rw [if_neg (by omega)]
    rw [Nat.mul_comm] at h ⊢
    exact ⟨_, rfl, foldl_moves hmem hlog t h⟩

theorem OMoveEx2_spec (px py : Nat) (cond : U32) {size : U32} (hsize : size.val ≤ 2147483616) (t : Logged)
    (h : Apart px py (moved size.val)) :
    ∃ t', OMoveEx2 px py cond size t = some t' ∧
      t'.m.mem = copy t.m.mem px t.m.mem (source2 px py cond) (moved size.val) ∧
      t'.log = t.log ++ accesses2 px py size.val := by
  refine stages_spec (fun t => move2_mem cond 16 0 px py t) (fun t => move2_log cond 16 0 px py t) (fun i t => ?_)
    (fun i t => move2_log cond 32 1 (px + i) (py + i) t) hsize t (source2_apart px py cond h)
  rw [move2_mem]
  congr 1
  exact (ite_add ..).symm

theorem OMoveEx3_spec (pz px py : Nat) (cond : U32) {size : U32} (hsize : size.val ≤ 2147483616) (t : Logged)
    (hx : Apart pz px (moved size.val)) (hy : Apart pz py (moved size.val)) :
    ∃ t', OMoveEx3 pz px py cond size t = some t' ∧
      t'.m.mem = copy t.m.mem pz t.m.mem (source3 px py cond) (moved size.val) ∧
      t'.log = t.log ++ accesses3 pz px py size.val := by
  refine stages_spec (fun t => move3_mem cond 16 2 pz px py t) (fun t => move3_log cond 16 2 pz px py t) (fun i t => ?_)
    (fun i t => move3_log cond 32 3 (pz + i) (px + i) (py + i) t) hsize t (.inr (source3_apart px py cond hx hy))
  rw [move3_mem]
  congr 1
  exact (ite_add ..).symm

end Faster

/-! ## The exchanges -/

/-- A `bool` passed as an `int`. -/
def bit (cond : Bool) : U32 := if cond then 1 else 0

/-- `OSwap4(i, j, cond)` and `OSwap8(i, j, cond)`, for elements of `w` bytes at `a` and `b`. -/
def OSwapWord (w a b : Nat) (cond : Bool) (t : Logged) : Logged :=
  let tmp := OMove (load t.m.mem a w) (load t.m.mem b w) cond
  let mem := store t.m.mem a (OMove (load t.m.mem b w) (load t.m.mem a w) cond)
  ⟨{ t.m with mem := store mem b tmp }, t.log ++ [.read a w, .read b w, .read b w, .read a w, .write a w, .write b w]⟩

/-- `OSwapEx(i, j, cond)`, with the local array at `tmp`. -/
def OSwapEx (w tmp a b : Nat) (cond : Bool) (t : Logged) : Option Logged := do
  let t ← Faster.OMoveEx3 tmp a b (bit cond) (Fin.ofNat 4294967296 w) t
  let t ← Faster.OMoveEx2 a b (bit cond) (Fin.ofNat 4294967296 w) t
  some ⟨{ t.m with mem := copy t.m.mem b t.m.mem tmp w }, t.log ++ [.read tmp w, .write b w]⟩

/-- `OSwap`, as the constructor of a sorter chooses it for elements of `w` bytes; it leaves it unset for some sizes. -/
def OSwap (w tmp a b : Nat) (cond : Bool) (t : Logged) : Option Logged :=
  if w = 1 ∨ w = 2 ∨ w = 10 then none
  else if w = 4 ∨ w = 8 then some (OSwapWord w a b cond t)
  else OSwapEx w tmp a b cond t

def Whole (w : Nat) : Prop := w = 4 ∨ w = 8 ∨ w = 16 ∨ 0 < w ∧ w % 32 = 0

/-- The elements of `w` bytes at `a` and `b` are exchanged if `cond` holds, and nothing else but `tmp` is changed. -/
structure Exchanged (w tmp a b : Nat) (cond : Bool) (mem mem' : Nat → Byte) : Prop where
  first : load mem' a w = if cond then load mem b w else load mem a w
  second : load mem' b w = if cond then load mem a w else load mem b w
  frame : ∀ k, (k < a ∨ a + w ≤ k) → (k < b ∨ b + w ≤ k) → (k < tmp ∨ tmp + w ≤ k) → mem' k = mem k

def swapAccesses (w tmp a b : Nat) : List Access :=
  if w = 4 ∨ w = 8 then [.read a w, .read b w, .read b w, .read a w, .write a w, .write b w]
  else Faster.accesses3 tmp a b w ++ Faster.accesses2 a b w ++ [.read tmp w, .write b w]

theorem OSwapWord_exchanged {w a b : Nat} (tmp : Nat) (hab : Apart a b w) (cond : Bool) (t : Logged) :
    Exchanged w tmp a b cond t.m.mem (OSwapWord w a b cond t).m.mem := by
  have hlen (x y : Nat) : (OMove (load t.m.mem x w) (load t.m.mem y w) cond).length = w := by
    cases cond <;> simp [OMove]
  refine ⟨?_, ?_, fun k ha hb _ => ?_⟩
  · rw [OSwapWord, load_store_outside _ (by rw [hlen]; exact hab), load_store_of_length _ _ (hlen b a)]
    rfl
  · exact load_store_of_length _ _ (hlen a b)
  · exact (store_of_outside (by rw [hlen]; exact hb)).trans (store_of_outside (by rw [hlen]; exact ha))

theorem OSwapEx_exchanged {w tmp a b : Nat} (hw : Faster.moved w = w) (hmax : w < 65536) (hab : Apart a b w)
    (ha : Apart tmp a w) (hb : Apart tmp b w) (cond : Bool) (t : Logged) :
    ∃ t', OSwapEx w tmp a b cond t = some t' ∧ Exchanged w tmp a b cond t.m.mem t'.m.mem ∧
      t'.log = t.log ++ (Faster.accesses3 tmp a b w ++ Faster.accesses2 a b w ++ [.read tmp w, .write b w]) := by
  have hsize : (Fin.ofNat 4294967296 w).val = w := Nat.mod_eq_of_lt (by omega)
  have hmax' : (Fin.ofNat 4294967296 w).val ≤ 2147483616 := by omega
  obtain ⟨t₁, h₁, hmem₁, hlog₁⟩ :=
    Faster.OMoveEx3_spec tmp a b (bit cond) hmax' t (by rwa [hsize, hw]) (by rwa [hsize, hw])
  obtain ⟨t₂, h₂, hmem₂, hlog₂⟩ := Faster.OMoveEx2_spec a b (bit cond) hmax' t₁ (by rwa [hsize, hw])
  rw [hsize] at hmem₁ hlog₁ hmem₂ hlog₂
  rw [hw] at hmem₁ hmem₂
  refine ⟨_, by rw [OSwapEx, h₁, Option.bind_eq_bind, Option.bind_some, h₂, Option.bind_some], ?_, ?_⟩
  · have htmp : load t₁.m.mem tmp w = if cond then load t.m.mem a w else load t.m.mem b w := by
      rw [hmem₁, load_copy]
      cases cond <;> rfl
    refine ⟨?_, ?_, fun k hka hkb hkt => ?_⟩
    · rw [load_copy_apart _ hab.symm, hmem₂, load_copy]
      have hkeep {s : Nat} (hs : Apart tmp s w) : load t₁.m.mem s w = load t.m.mem s w := by
        rw [hmem₁, load_copy_apart _ hs]
      cases cond
      · exact hkeep ha
      · exact hkeep hb
    · rw [load_copy, hmem₂, load_copy_apart _ ha.symm, htmp]
    · exact (copy_of_outside hkb).trans ((congrFun hmem₂ k).trans ((copy_of_outside hka).trans
        ((congrFun hmem₁ k).trans (copy_of_outside hkt))))
  · rw [hlog₂, hlog₁]
    simp only [List.append_assoc]

theorem moved_of_whole {w : Nat} (hw : Whole w) (h4 : ¬(w = 4 ∨ w = 8)) : Faster.moved w = w := by
  unfold Whole at hw
  unfold Faster.moved
  split_ifs <;> omega

/-- An exchange of whole elements, whatever the condition is: what it does and what it accesses. -/
theorem OSwap_spec {w tmp a b : Nat} (hw : Whole w) (hmax : w < 65536) (hab : Apart a b w) (ha : Apart tmp a w)
    (hb : Apart tmp b w) (cond : Bool) (t : Logged) :
    ∃ t', OSwap w tmp a b cond t = some t' ∧ Exchanged w tmp a b cond t.m.mem t'.m.mem ∧
      t'.log = t.log ++ swapAccesses w tmp a b := by
  have hset : ¬(w = 1 ∨ w = 2 ∨ w = 10) := by
    unfold Whole at hw
    omega
  unfold OSwap swapAccesses
  rw [if_neg hset]
  by_cases h4 : w = 4 ∨ w = 8
  · rw [if_pos h4, if_pos h4]
    exact ⟨_, rfl, OSwapWord_exchanged tmp hab cond t, rfl⟩
  · rw [if_neg h4, if_neg h4]
    exact OSwapEx_exchanged (moved_of_whole hw h4) hmax hab ha hb cond t

/-- Memory with other bytes behind 90000 and behind 200000. -/
def layered : Logged :=
  ⟨⟨0, [], false, fun _ => [], fun k => if k < 90000 then 0 else if k < 200000 then 1 else 2⟩, []⟩

/-- Other sizes than those of whole elements: nothing is moved to the local array, or more than an element. -/
theorem whole_of_exchanged {w : Nat} (h0 : 0 < w) (hmax : w < 65536)
    (h : ∀ cond, ∃ t', OSwap w 300000 0 100000 cond layered = some t' ∧
      Exchanged w 300000 0 100000 cond layered.m.mem t'.m.mem) : Whole w := by
  by_contra hw
  have h4 : ¬(w = 4 ∨ w = 8) := fun h => hw (by unfold Whole; omega)
  obtain ⟨t', ht, hx⟩ := h (decide (16 ≤ w))
  have hsize : (Fin.ofNat 4294967296 w).val = w := Nat.mod_eq_of_lt (by omega)
  have hmoved : Faster.moved w ≤ 65536 := by
    unfold Faster.moved
    split_ifs <;> omega
  have hmax' : (Fin.ofNat 4294967296 w).val ≤ 2147483616 := by omega
  rw [← hsize] at hmoved
  obtain ⟨t₁, h₁, hmem₁, -⟩ :=
    Faster.OMoveEx3_spec 300000 0 100000 (bit (decide (16 ≤ w))) hmax' layered (.inr (by omega)) (.inr (by omega))
  obtain ⟨t₂, h₂, hmem₂, -⟩ :=
    Faster.OMoveEx2_spec 0 100000 (bit (decide (16 ≤ w))) hmax' t₁ (.inl (by omega))
  rw [hsize] at hmem₁ hmem₂
  unfold OSwap at ht
  split_ifs at ht
  rw [OSwapEx, h₁, Option.bind_eq_bind, Option.bind_some, h₂, Option.bind_some, Option.some.injEq] at ht
  subst ht
  by_cases h16 : 16 ≤ w
  · -- the first byte behind the first element
    have hbehind := hx.frame w (by omega) (by omega) (by omega)
    have hlt : w < Faster.moved w := by
      unfold Whole at hw
      unfold Faster.moved
      split_ifs <;> omega
    have hsource : source2 0 100000 (bit (decide (16 ≤ w))) = 100000 := by simp [source2, bit, h16]
    have hcopied : t₂.m.mem w = t₁.m.mem (100000 + w) := by
      rw [hmem₂, hsource]
      simpa using copy_of_inside (d := 0) hlt
    have hfrom : t₁.m.mem (100000 + w) = 1 := by
      rw [hmem₁, copy_of_outside (by omega)]
      exact (if_neg (by omega)).trans (if_pos (by omega))
    have hzero : layered.m.mem w = 0 := if_pos (by omega)
    dsimp only at hbehind
    rw [copy_of_outside (by omega), hcopied, hfrom, hzero] at hbehind
    exact absurd hbehind (by decide)
  · -- the local array has not been written
    have hnone : Faster.moved w = 0 := if_pos (by omega)
    rw [hnone, copy_zero] at hmem₁ hmem₂
    have hsecond := congrArg (·[0]?) hx.second
    simp only [h16, decide_false, Bool.false_eq_true, if_false, load_copy, hmem₂, hmem₁] at hsecond
    rw [getElem?_load _ _ h0, getElem?_load _ _ h0] at hsecond
    exact absurd (Option.some.inj hsecond) (by decide)

/-- **The exchange of the sorters** moves whole elements for the sizes 4, 8, 16 and the multiples of 32, and for no
others. -/
theorem OSwap_exchanges_iff {w : Nat} (h0 : 0 < w) (hmax : w < 65536) :
    (∀ {tmp a b : Nat} (cond : Bool) (t : Logged), Apart a b w → Apart tmp a w → Apart tmp b w →
      ∃ t', OSwap w tmp a b cond t = some t' ∧ Exchanged w tmp a b cond t.m.mem t'.m.mem) ↔ Whole w := by
  constructor
  · intro h
    exact whole_of_exchanged h0 hmax fun cond => h cond layered (.inl (by omega)) (.inr (by omega)) (.inr (by omega))
  · intro hw tmp a b cond t hab ha hb
    obtain ⟨t', ht, hx, -⟩ := OSwap_spec hw hmax hab ha hb cond t
    exact ⟨t', ht, hx⟩

theorem OSwap_exchanges_iff_64 :
    (∀ {tmp a b : Nat} (cond : Bool) (t : Logged), Apart a b 64 → Apart tmp a 64 → Apart tmp b 64 →
      ∃ t', OSwap 64 tmp a b cond t = some t' ∧ Exchanged 64 tmp a b cond t.m.mem t'.m.mem) ↔ Whole 64 :=
  OSwap_exchanges_iff (by decide) (by decide)

end FOSketch.Asm
