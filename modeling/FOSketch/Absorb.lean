import FOSketch.Memory

/-!
# Absorbing a message block by block

A state of `n` variables is changed by lines that each `put` a new value in one of them; a line that can be undone is a
bijection of the states (`put_bijective`).

`blocks` mixes `k` blocks of `n` cells into a state. It can be cut at every block (`blocks_add`) and depends on the cells of
the blocks only (`blocks_congr`).
-/

namespace FOSketch.Absorb

open Memory

/-! ## Variables -/

section Variables

variable {α : Type*} {n : Nat}

def put (s : Vector α n) (i : Fin n) (x : α) : Vector α n := s.set i.val x i.isLt

@[simp] theorem get_put (s : Vector α n) (i : Fin n) (x : α) : (put s i x).get i = x := Vector.getElem_set_self i.isLt

theorem get_put_of_ne (s : Vector α n) {i j : Fin n} (h : i ≠ j) (x : α) : (put s i x).get j = s.get j :=
  Vector.getElem_set_ne i.isLt j.isLt (Fin.val_ne_of_ne h)

@[simp] theorem put_put (s : Vector α n) (i : Fin n) (x y : α) : put (put s i x) i y = put s i y := Vector.set_set x i.isLt

@[simp] theorem put_get (s : Vector α n) (i : Fin n) : put s i (s.get i) = s := Vector.set_getElem_self i.isLt

/-- A line that changes the variable `i` as the others say, and can be undone. -/
theorem put_bijective (i : Fin n) (f : Vector α n → α → α) (hf : ∀ s x, f (put s i x) = f s)
    (hbij : ∀ s, Function.Bijective (f s)) : Function.Bijective fun s => put s i (f s (s.get i)) := by
  constructor
  · intro s s' h
    have hput (x : α) : put s i x = put s' i x := by
      simpa using congrArg (fun t => put t i x) h
    have hsame : f s = f s' := by rw [← hf s (s.get i), hput, hf]
    have hget : f s (s.get i) = f s' (s'.get i) := by simpa using congrArg (fun t => t.get i) h
    rw [hsame] at hget
    rw [← put_get s i, hput, (hbij s').1 hget, put_get]
  · intro t
    obtain ⟨x, hx⟩ := (hbij t).2 (t.get i)
    exact ⟨put t i x, by simp [hf, hx]⟩

theorem foldl_bijective {ι σ : Type*} {line : σ → ι → σ} {l : List ι}
    (h : ∀ i ∈ l, Function.Bijective fun s => line s i) : Function.Bijective fun s => l.foldl line s := by
  induction l with
  | nil => exact Function.bijective_id
  | cons i l ih =>
    exact (ih fun j hj => h j (List.mem_cons_of_mem i hj)).comp (h i List.mem_cons_self)

end Variables

/-! ## Blocks -/

variable {β σ : Type*} {n : Nat} {mix : (Nat → β) → Nat → σ → σ}

/-- The blocks from `s` on, mixed one after the other. -/
def blocks (n : Nat) (mix : (Nat → β) → Nat → σ → σ) (m : Nat → β) (s k : Nat) (h : σ) : σ :=
  (List.range k).foldl (fun h j => mix m (s + n * j) h) h

@[simp] theorem blocks_zero (m : Nat → β) (s : Nat) (h : σ) : blocks n mix m s 0 h = h := rfl

theorem blocks_succ (m : Nat → β) (s k : Nat) (h : σ) :
    blocks n mix m s (k + 1) h = mix m (s + n * k) (blocks n mix m s k h) := by
  unfold blocks
  rw [List.range_succ, List.foldl_append]
  rfl

theorem blocks_one (m : Nat → β) (s : Nat) (h : σ) : blocks n mix m s 1 h = mix m s h := by
  rw [blocks_succ, Nat.mul_zero, Nat.add_zero, blocks_zero]

theorem blocks_add (m : Nat → β) (s a b : Nat) (h : σ) :
    blocks n mix m s (a + b) h = blocks n mix m (s + n * a) b (blocks n mix m s a h) := by
  induction b with
  | zero => rfl
  | succ b ih => rw [← Nat.add_assoc, blocks_succ, ih, blocks_succ, Nat.mul_add, Nat.add_assoc]

/-- The result depends on the block only. -/
def Local (n : Nat) (mix : (Nat → β) → Nat → σ → σ) : Prop :=
  ∀ {m m' : Nat → β} {s s' : Nat} (h : σ), load m s n = load m' s' n → mix m s h = mix m' s' h

theorem blocks_congr (hmix : Local n mix) {m m' : Nat → β} {s s' k : Nat} (h : σ)
    (hm : load m s (n * k) = load m' s' (n * k)) : blocks n mix m s k h = blocks n mix m' s' k h := by
  induction k with
  | zero => rfl
  | succ k ih =>
    rw [Nat.mul_succ, load_add, load_add] at hm
    obtain ⟨hfront, hlast⟩ := List.append_inj hm (by rw [length_load, length_load])
    rw [blocks_succ, blocks_succ, ih hfront]
    exact hmix _ hlast

end FOSketch.Absorb
