import FOSketch.Asm.Faster
import FOSketch.Sorter

/-!
# The sorters in memory

`BitonicSorter` and `OddEvenMergeSorter` as they run on the bytes of an array at `list` with elements of `w` bytes, with the
local array of `OSwapEx` at `tmp`. They run a network of comparators that `greater` has no part in (`bitonicSort_eq`,
`oddEvenMergeSort_eq`); each comparator keeps the elements those of the list that the network runs on (`Holds.exchange`).
-/

namespace FOSketch.Asm

open Memory Network

/-- An array of elements and a comparison of two of them. -/
structure Arr where
  list : Nat
  w : Nat
  tmp : Nat
  greater : List Byte → List Byte → Bool

namespace Arr

variable (A : Arr)

def elem (i : Nat) : Nat := A.list + i * A.w

/-- The comparison reads two elements, the exchange does the rest. -/
def exchange (c : Comparator) (t : Logged) : Option Logged :=
  let greater := A.greater (load t.m.mem (A.elem c.lo) A.w) (load t.m.mem (A.elem c.hi) A.w)
  OSwap A.w A.tmp (A.elem c.lo) (A.elem c.hi) (c.up == greater)
    { t with log := t.log ++ [.read (A.elem c.lo) A.w, .read (A.elem c.hi) A.w] }

def runNet (cs : List Comparator) (t : Logged) : Option Logged := cs.foldlM (fun t c => A.exchange c t) t

@[simp] theorem runNet_nil (t : Logged) : A.runNet [] t = some t := rfl

@[simp] theorem runNet_cons (c : Comparator) (cs : List Comparator) (t : Logged) :
    A.runNet (c :: cs) t = (A.exchange c t).bind (A.runNet cs) := rfl

theorem runNet_singleton (c : Comparator) (t : Logged) : A.runNet [c] t = A.exchange c t := by
  rw [runNet_cons]
  cases A.exchange c t <;> rfl

theorem runNet_append (cs ds : List Comparator) (t : Logged) :
    A.runNet (cs ++ ds) t = (A.runNet cs t).bind (A.runNet ds) := by
  unfold runNet
  rw [List.foldlM_append]
  rfl

end Arr

/-! ## `BitonicSorter` -/

namespace BitonicSorter

open FOSketch.BitonicSorter (half half_halves)

variable (A : Arr)

def compare (i j : Nat) (dir : Bool) : Logged → Option Logged := A.exchange ⟨i, j, dir⟩

/-- `bitonicMerge(lo, n, dir)`; the first argument bounds the depth of the recursion. -/
def bitonicMerge : Nat → Nat → Nat → Bool → Logged → Option Logged
  | 0, _, _, _, t => some t
  | f + 1, lo, n, dir, t =>
    if 1 < n then
      let m := half n
      ((List.range' lo (n - m)).foldlM (fun t i => compare A i (i + m) dir t) t).bind fun t =>
        (bitonicMerge f lo m dir t).bind fun t => bitonicMerge f (lo + m) (n - m) dir t
    else some t

def bitonicSort : Nat → Nat → Nat → Bool → Logged → Option Logged
  | 0, _, _, _, t => some t
  | f + 1, lo, n, dir, t =>
    if 1 < n then
      let m := n / 2
      (bitonicSort f lo m (!dir) t).bind fun t =>
        (bitonicSort f (lo + m) (n - m) dir t).bind fun t => bitonicMerge A n lo n dir t
    else some t

def sort (num : Nat) (t : Logged) : Option Logged := if num < 2 then some t else bitonicSort A num 0 num true t

def merge (num : Nat) (t : Logged) : Option Logged := if num < 2 then some t else bitonicMerge A num 0 num true t

theorem foldlM_compare (lo k m : Nat) (dir : Bool) (t : Logged) :
    (List.range' lo k).foldlM (fun t i => compare A i (i + m) dir t) t =
      A.runNet ((layer k m dir).map (Comparator.move (· + lo))) t := by
  rw [List.range'_eq_map_range, List.foldlM_map, Arr.runNet, layer, List.map_map, List.foldlM_map]
  congr 1
  funext t i
  simp only [compare, Function.comp_apply, Comparator.move]
  rw [show lo + i = i + lo by omega, show i + lo + m = i + m + lo by omega]

theorem bitonicMerge_eq (f : Nat) (lo n : Nat) (dir : Bool) (t : Logged) :
    bitonicMerge A f lo n dir t = A.runNet ((mergeNet half dir f n).map (Comparator.move (· + lo))) t := by
  induction f generalizing t lo n with
  | zero => rfl
  | succ f ih =>
    unfold bitonicMerge mergeNet
    split_ifs with h
    · have hmove : (fun k => k + (lo + half n)) = (fun k => k + lo) ∘ fun k => k + half n := by
        funext k
        rw [Function.comp_apply, Nat.add_assoc, Nat.add_comm lo]
      simp only [ih, foldlM_compare, List.map_append, Arr.runNet_append, map_move_move, hmove]
    · rfl

theorem bitonicSort_eq (f : Nat) (lo n : Nat) (dir : Bool) (t : Logged) :
    bitonicSort A f lo n dir t = A.runNet ((sortNet half dir f n).map (Comparator.move (· + lo))) t := by
  induction f generalizing t lo n dir with
  | zero => rfl
  | succ f ih =>
    unfold bitonicSort sortNet
    split_ifs with h
    · have hmove : (fun k => k + (lo + n / 2)) = (fun k => k + lo) ∘ fun k => k + n / 2 := by
        funext k
        rw [Function.comp_apply, Nat.add_assoc, Nat.add_comm lo]
      simp only [ih, bitonicMerge_eq, List.map_append, Arr.runNet_append, map_move_move, hmove, Option.bind_assoc]
    · rfl

theorem sort_eq (num : Nat) (t : Logged) : sort A num t = A.runNet (sortNet half true num num) t := by
  unfold sort
  split_ifs with h
  · obtain rfl | rfl : num = 0 ∨ num = 1 := by omega
    · rfl
    · rfl
  · rw [bitonicSort_eq]
    exact congrArg (A.runNet · t) (List.map_id _)

theorem merge_eq (num : Nat) (t : Logged) : merge A num t = A.runNet (mergeNet half true num num) t := by
  unfold merge
  split_ifs with h
  · obtain rfl | rfl : num = 0 ∨ num = 1 := by omega
    · rfl
    · rfl
  · rw [bitonicMerge_eq]
    exact congrArg (A.runNet · t) (List.map_id _)

end BitonicSorter

/-! ## `OddEvenMergeSorter` -/

namespace OddEvenMergeSorter

open FOSketch.OddEvenMergeSorter (steps steps_neighbours intArg intArg_of_lt)

variable (A : Arr)

def compare (i j : Nat) : Logged → Option Logged := A.exchange ⟨i, j, true⟩

/-- `oddEvenMerge(lo, n, r)`; the first argument bounds the depth of the recursion. -/
def oddEvenMerge : Nat → Nat → Nat → Nat → Logged → Option Logged
  | 0, _, _, _, t => some t
  | f + 1, lo, n, r, t =>
    let m := r * 2
    if m < n then
      (oddEvenMerge f lo n m t).bind fun t =>
        (oddEvenMerge f (lo + r) n m t).bind fun t =>
          (steps (lo + r) (lo + n - r) m).foldlM (fun t i => compare A i (i + r) t) t
    else compare A lo (lo + r) t

def oddEvenMergeSort : Nat → Nat → Nat → Logged → Option Logged
  | 0, _, _, t => some t
  | f + 1, lo, n, t =>
    if 1 < n then
      let m := n / 2
      (oddEvenMergeSort f lo m t).bind fun t =>
        (oddEvenMergeSort f (lo + m) m t).bind fun t => oddEvenMerge A n lo n 1 t
    else some t

/-- `sort(pData, num)`, which does nothing when `num` is not a power of two. -/
def sort (num : Nat) (t : Logged) : Option Logged :=
  if num < 2 then some t else if !testPo2 num then some t else oddEvenMergeSort A num 0 (intArg num) t

/-- `merge(pData, num)`, which does nothing when `num` is not a power of two. -/
def merge (num : Nat) (t : Logged) : Option Logged :=
  if num < 2 then some t else if !testPo2 num then some t else oddEvenMerge A num 0 (intArg num) 1 t

theorem foldlM_compare (lo r k : Nat) (hr : 0 < r) (t : Logged) :
    (steps (lo + r) (lo + 2 ^ (k + 2) * r - r) (r * 2)).foldlM (fun t i => compare A i (i + r) t) t =
      A.runNet ((neighbours (2 ^ (k + 1) - 1)).map (Comparator.move (lo + · * r))) t := by
  rw [steps_neighbours lo r k hr, List.foldlM_map, Arr.runNet, neighbours, List.map_map, List.foldlM_map]
  congr 1
  funext t i
  simp only [compare, Function.comp_apply, Comparator.move]
  rw [show lo + r + r * 2 * i = lo + (2 * i + 1) * r by ring, show lo + (2 * i + 1) * r + r = lo + (2 * i + 2) * r by ring]

theorem oddEvenMerge_eq (k : Nat) {f : Nat} (hf : k < f) (lo : Nat) {r : Nat} (hr : 0 < r) (t : Logged) :
    oddEvenMerge A f lo (2 ^ (k + 1) * r) r t =
      A.runNet ((oddEvenMergeNet (k + 1)).map (Comparator.move (lo + · * r))) t := by
  induction k generalizing f t lo r with
  | zero =>
    obtain ⟨f, rfl⟩ : ∃ g, f = g + 1 := ⟨f - 1, by omega⟩
    rw [oddEvenMerge, if_neg (by omega)]
    simp [compare, oddEvenMergeNet, Comparator.move, Arr.runNet_singleton, -Arr.runNet_cons]
  | succ k ih =>
    obtain ⟨f, rfl⟩ : ∃ g, f = g + 1 := ⟨f - 1, by omega⟩
    have h4 : 2 ^ (k + 1 + 1) * r = 2 ^ (k + 1) * (r * 2) := by rw [pow_succ]; ring
    have hlt : r * 2 < 2 ^ (k + 1) * (r * 2) := by
      have : 1 < 2 ^ (k + 1) := Nat.one_lt_two_pow (by omega)
      exact (Nat.lt_mul_iff_one_lt_left (by omega)).mpr this
    have heven : (lo + · * (r * 2)) = (lo + · * r) ∘ (2 * ·) := by
      funext i
      simp only [Function.comp_apply]
      ring
    have hodd : (lo + r + · * (r * 2)) = (lo + · * r) ∘ (2 * · + 1) := by
      funext i
      simp only [Function.comp_apply]
      ring
    have hfold := foldlM_compare A lo r k hr
    rw [h4] at hfold
    rw [oddEvenMerge, if_pos (by rwa [h4]), h4]
    simp only [hfold, ih (show k < f by omega) _ (show 0 < r * 2 by omega), oddEvenMergeNet, List.map_append, map_move_move,
      Arr.runNet_append, heven, hodd, Option.bind_assoc]

theorem oddEvenMergeSort_eq (e : Nat) {f : Nat} (hf : e ≤ f) (lo : Nat) (t : Logged) :
    oddEvenMergeSort A f lo (2 ^ e) t = A.runNet ((oddEvenSortNet e).map (Comparator.move (· + lo))) t := by
  induction e generalizing f t lo with
  | zero => cases f <;> rfl
  | succ e ih =>
    obtain ⟨f, rfl⟩ : ∃ g, f = g + 1 := ⟨f - 1, by omega⟩
    have h2 : 2 ^ (e + 1) / 2 = 2 ^ e := by rw [pow_succ, Nat.mul_div_cancel _ (by omega)]
    have hm := oddEvenMerge_eq A e (f := 2 ^ (e + 1)) (Nat.lt_trans (Nat.lt_succ_self e) Nat.lt_two_pow_self) lo
      (r := 1) (by omega)
    have hone : (fun k => lo + k * 1) = fun k => k + lo := by
      funext k
      omega
    have hmove : (fun k => k + (lo + 2 ^ e)) = (fun k => k + lo) ∘ fun k => k + 2 ^ e := by
      funext k
      rw [Function.comp_apply, Nat.add_assoc, Nat.add_comm lo]
    rw [Nat.mul_one, hone] at hm
    rw [oddEvenMergeSort, if_pos (Nat.one_lt_two_pow (by omega)), h2]
    simp only [ih (show e ≤ f by omega), hm, oddEvenSortNet, List.map_append, map_move_move, Arr.runNet_append, hmove,
      Option.bind_assoc]

theorem sort_eq {e : Nat} (hmax : 2 ^ e ≤ 2 ^ 30) (t : Logged) : sort A (2 ^ e) t = A.runNet (oddEvenSortNet e) t := by
  unfold sort
  rw [testPo2_iff.mpr ⟨e, rfl⟩, intArg_of_lt (by omega), oddEvenMergeSort_eq A e Nat.lt_two_pow_self.le]
  split_ifs with h
  · obtain rfl : e = 0 := by
      by_contra he
      exact absurd (Nat.one_lt_two_pow he) (by omega)
    rfl
  · exact absurd ‹(!true) = true› (by decide)
  · exact congrArg (A.runNet · t) (List.map_id _)

theorem merge_eq {e : Nat} (hmax : 2 ^ (e + 1) ≤ 2 ^ 30) (t : Logged) :
    merge A (2 ^ (e + 1)) t = A.runNet (oddEvenMergeNet (e + 1)) t := by
  have hm := oddEvenMerge_eq A e (f := 2 ^ (e + 1)) (Nat.lt_trans (Nat.lt_succ_self e) Nat.lt_two_pow_self) 0
    (r := 1) (by omega) t
  rw [Nat.mul_one] at hm
  have h1 : 1 < 2 ^ (e + 1) := Nat.one_lt_two_pow (by omega)
  rw [merge, if_neg (by omega), testPo2_iff.mpr ⟨e + 1, rfl⟩, Bool.not_true, if_neg (by simp), intArg_of_lt (by omega), hm]
  have hid : (0 + · * 1 : Nat → Nat) = id := by funext k; rw [id, Nat.mul_one, Nat.zero_add]
  rw [hid]
  exact congrArg (A.runNet · t) (List.map_id _)

end OddEvenMergeSorter

/-! ## The elements in memory -/

namespace Arr

/-- The elements of `l` lie in the array. -/
def Holds (A : Arr) (l : List (List Byte)) (mem : Nat → Byte) : Prop :=
  ∀ ⦃k : Nat⦄ ⦃x : List Byte⦄, l[k]? = some x → load mem (A.elem k) A.w = x

/-- An array of `num` whole elements, away from the local array. -/
structure Valid (A : Arr) (num : Nat) : Prop where
  whole : Whole A.w
  small : A.w < 65536
  away : A.tmp + A.w ≤ A.list ∨ A.elem num ≤ A.tmp

variable {A : Arr} {num : Nat}

theorem elem_add (A : Arr) (i k : Nat) : A.elem (i + k) = A.elem i + k * A.w := by
  rw [elem, elem, Nat.add_mul, Nat.add_assoc]

theorem elem_le (A : Arr) {i j : Nat} (h : i < j) : A.elem i + A.w ≤ A.elem j := by
  obtain ⟨k, rfl⟩ := Nat.exists_eq_add_of_lt h
  rw [Nat.add_assoc, elem_add, Nat.add_mul, Nat.one_mul]
  omega

theorem elem_apart (A : Arr) {i j : Nat} (h : i ≠ j) : Apart (A.elem i) (A.elem j) A.w := by
  rcases Nat.lt_or_gt_of_ne h with h | h
  · exact .inl (A.elem_le h)
  · exact .inr (A.elem_le h)

theorem Valid.tmp_apart (hA : A.Valid num) {i : Nat} (hi : i < num) : Apart A.tmp (A.elem i) A.w := by
  have hlast := A.elem_le hi
  have hfirst : A.list ≤ A.elem i := Nat.le_add_right _ _
  exact hA.away.imp (fun h => by omega) fun h => by omega

def comparatorAccesses (A : Arr) (c : Comparator) : List Access :=
  .read (A.elem c.lo) A.w :: .read (A.elem c.hi) A.w :: swapAccesses A.w A.tmp (A.elem c.lo) (A.elem c.hi)

/-- A byte of neither the array nor the local array. -/
def Outside (A : Arr) (num k : Nat) : Prop := (k < A.list ∨ A.elem num ≤ k) ∧ (k < A.tmp ∨ A.tmp + A.w ≤ k)

/-- One comparator. -/
theorem Holds.exchange {l : List (List Byte)} {t : Logged} (h : A.Holds l t.m.mem) (hA : A.Valid l.length) {c : Comparator}
    (hlo : c.lo < l.length) (hhi : c.hi < l.length) (hne : c.lo ≠ c.hi) :
    ∃ t', A.exchange c t = some t' ∧ A.Holds (Network.exchange A.greater c l) t'.m.mem ∧
      (∀ k, A.Outside l.length k → t'.m.mem k = t.m.mem k) ∧ t'.log = t.log ++ A.comparatorAccesses c := by
  obtain ⟨t', ht, hswap, hlog⟩ := OSwap_spec hA.whole hA.small (A.elem_apart hne) (hA.tmp_apart hlo) (hA.tmp_apart hhi)
    (c.up == A.greater (load t.m.mem (A.elem c.lo) A.w) (load t.m.mem (A.elem c.hi) A.w))
    { t with log := t.log ++ [.read (A.elem c.lo) A.w, .read (A.elem c.hi) A.w] }
  obtain ⟨x, hx⟩ : ∃ x, l[c.lo]? = some x := ⟨_, List.getElem?_eq_getElem hlo⟩
  obtain ⟨y, hy⟩ : ∃ y, l[c.hi]? = some y := ⟨_, List.getElem?_eq_getElem hhi⟩
  rw [h hx, h hy] at hswap
  refine ⟨t', ht, ?_, ?_, ?_⟩
  · have hfirst := hswap.first
    have hsecond := hswap.second
    rw [h hx, h hy] at hfirst hsecond
    have hother {k : Nat} {z : List Byte} (hk : l[k]? = some z) (hklo : c.lo ≠ k) (hkhi : c.hi ≠ k) :
        load t'.m.mem (A.elem k) A.w = z := by
      rw [← h hk]
      have hlt : k < l.length := (List.getElem?_eq_some_iff.mp hk).1
      have hlo' := A.elem_apart hklo
      have hhi' := A.elem_apart hkhi
      have htmp := hA.tmp_apart hlt
      unfold Apart at hlo' hhi' htmp
      exact load_congr fun j hj => hswap.frame _ (by omega) (by omega) (by omega)
    have hexchange : Network.exchange A.greater c l =
        if c.up == A.greater x y then (l.set c.lo y).set c.hi x else l := by
      simp [Network.exchange, hx, hy]
    intro k z hz
    rw [hexchange] at hz
    by_cases hcond : (c.up == A.greater x y) = true
    · rw [if_pos hcond] at hz hfirst hsecond
      by_cases hkhi : c.hi = k
      · subst hkhi
        rw [List.getElem?_set_self (by rwa [List.length_set]), Option.some.injEq] at hz
        rw [hsecond, hz]
      rw [List.getElem?_set_ne hkhi] at hz
      by_cases hklo : c.lo = k
      · subst hklo
        rw [List.getElem?_set_self hlo, Option.some.injEq] at hz
        rw [hfirst, hz]
      · rw [List.getElem?_set_ne hklo] at hz
        exact hother hz hklo hkhi
    · rw [if_neg hcond] at hz hfirst hsecond
      by_cases hkhi : c.hi = k
      · subst hkhi
        rw [hsecond]
        exact Option.some.inj (hy.symm.trans hz)
      by_cases hklo : c.lo = k
      · subst hklo
        rw [hfirst]
        exact Option.some.inj (hx.symm.trans hz)
      · exact hother hz hklo hkhi
  · rintro k ⟨hk, hktmp⟩
    have hlast := A.elem_le hlo
    have hlast' := A.elem_le hhi
    have hfirst : A.list ≤ A.elem c.lo := Nat.le_add_right _ _
    have hfirst' : A.list ≤ A.elem c.hi := Nat.le_add_right _ _
    exact hswap.frame k (by omega) (by omega) hktmp
  · rw [hlog, comparatorAccesses, List.append_assoc]
    rfl

/-- A network: the elements are those of the list that it runs on, the rest of memory is as before, and what is accessed
depends on the network and the place of the arrays only. -/
theorem Holds.runNet {l : List (List Byte)} {t : Logged} (h : A.Holds l t.m.mem) (hA : A.Valid l.length)
    {cs : List Comparator} (hcs : Below l.length cs) :
    ∃ t', A.runNet cs t = some t' ∧ A.Holds (runList A.greater cs l) t'.m.mem ∧
      (∀ k, A.Outside l.length k → t'.m.mem k = t.m.mem k) ∧ t'.log = t.log ++ cs.flatMap A.comparatorAccesses := by
  induction cs generalizing l t with
  | nil => exact ⟨t, rfl, h, fun _ _ => rfl, (List.append_nil _).symm⟩
  | cons c cs ih =>
    obtain ⟨hlo, hhi, hne⟩ := hcs c List.mem_cons_self
    obtain ⟨t₁, h₁, hl₁, hframe₁, hlog₁⟩ := h.exchange hA hlo hhi hne
    have hlen : (Network.exchange A.greater c l).length = l.length := (exchange_perm _ _ _).length_eq
    obtain ⟨t₂, h₂, hl₂, hframe₂, hlog₂⟩ := ih hl₁ (by rwa [hlen]) (by
      rw [hlen]
      exact fun d hd => hcs d (List.mem_cons_of_mem c hd))
    refine ⟨t₂, by rw [runNet_cons, h₁, Option.bind_some, h₂], hl₂, fun k hk => ?_, ?_⟩
    · rw [hframe₂ k (by rwa [hlen]), hframe₁ k hk]
    · rw [hlog₂, hlog₁, List.flatMap_cons, List.append_assoc]

def elements (A : Arr) (num : Nat) (mem : Nat → Byte) : List (List Byte) :=
  (List.range num).map fun k => load mem (A.elem k) A.w

@[simp] theorem length_elements (A : Arr) (num : Nat) (mem : Nat → Byte) : (A.elements num mem).length = num := by
  simp [elements]

theorem holds_elements (A : Arr) (num : Nat) (mem : Nat → Byte) : A.Holds (A.elements num mem) mem := by
  intro k x hx
  rw [elements, List.getElem?_map] at hx
  obtain ⟨j, hj, rfl⟩ := Option.map_eq_some_iff.mp hx
  rw [(List.getElem?_eq_some_iff.mp hj).2.symm, List.getElem_range]

theorem Holds.elements_eq {l : List (List Byte)} {mem : Nat → Byte} (h : A.Holds l mem) : A.elements l.length mem = l := by
  refine List.ext_getElem (length_elements _ _ _) fun k hk hk' => ?_
  simp only [elements, List.getElem_map, List.getElem_range]
  exact h (List.getElem?_eq_getElem hk')

/-- What `f` does to the array `g` does to a list, the rest of memory is as before, and the accesses are `log`. -/
def Runs (A : Arr) (num : Nat) (f : Logged → Option Logged) (g : List (List Byte) → List (List Byte))
    (log : List Access) : Prop :=
  ∀ t, ∃ t', f t = some t' ∧ A.elements num t'.m.mem = g (A.elements num t.m.mem) ∧
    (∀ k, A.Outside num k → t'.m.mem k = t.m.mem k) ∧ t'.log = t.log ++ log

/-- What `f` does to the array `g` does to a list, and the rest of memory is as before. -/
def Refines (A : Arr) (num : Nat) (f : Logged → Option Logged) (g : List (List Byte) → List (List Byte)) : Prop :=
  ∀ t, ∃ t', f t = some t' ∧ A.elements num t'.m.mem = g (A.elements num t.m.mem) ∧
    ∀ k, A.Outside num k → t'.m.mem k = t.m.mem k

/-- `f` makes the same accesses for every comparison and every memory. -/
def Oblivious (A : Arr) (f : Arr → Logged → Option Logged) : Prop :=
  ∃ log, ∀ greater t, ∃ t', f { A with greater := greater } t = some t' ∧ t'.log = t.log ++ log

theorem Runs.refines {f : Logged → Option Logged} {g : List (List Byte) → List (List Byte)} {log : List Access}
    (h : A.Runs num f g log) : A.Refines num f g := fun t =>
  let ⟨t', ht, hl, hframe, _⟩ := h t
  ⟨t', ht, hl, hframe⟩

theorem oblivious_of_runs {f : Arr → Logged → Option Logged} (num : Nat) (cs : List Comparator)
    (h : ∀ greater, ∃ g, Runs { A with greater := greater } num (f { A with greater := greater }) g
      (cs.flatMap A.comparatorAccesses)) : A.Oblivious f := by
  refine ⟨cs.flatMap A.comparatorAccesses, fun greater t => ?_⟩
  obtain ⟨g, hg⟩ := h greater
  obtain ⟨t', ht, -, -, hlog⟩ := hg t
  exact ⟨t', ht, hlog⟩

theorem runs_runNet (hA : A.Valid num) {cs : List Comparator} (hcs : Below num cs) :
    A.Runs num (A.runNet cs) (runList A.greater cs) (cs.flatMap A.comparatorAccesses) := by
  intro t
  have hlen := length_elements A num t.m.mem
  rw [← hlen] at hA hcs
  obtain ⟨t', ht, hl, hframe, hlog⟩ := Holds.runNet (holds_elements A num t.m.mem) hA hcs
  have helements := hl.elements_eq
  rw [length_runList, hlen] at helements
  rw [hlen] at hframe
  exact ⟨t', ht, helements, hframe, hlog⟩

theorem runs_none (A : Arr) (num : Nat) : A.Runs num some id [] := fun t =>
  ⟨t, rfl, rfl, fun _ _ => rfl, (List.append_nil _).symm⟩

end Arr

/-! ## The sorters -/

section Sorters

variable {A : Arr} {num total : Nat}

theorem BitonicSorter.runs_sort (hA : A.Valid total) (hle : num ≤ total) (hmax : num ≤ 2 ^ 30) :
    A.Runs total (sort A num) (FOSketch.BitonicSorter.sort A.greater · num)
      ((sortNet FOSketch.BitonicSorter.half true num num).flatMap A.comparatorAccesses) := by
  rw [funext (sort_eq A num), funext (FOSketch.BitonicSorter.sort_eq A.greater · num)]
  exact Arr.runs_runNet hA ((sortNet_below _ true FOSketch.BitonicSorter.half_halves num num hmax).mono hle)

theorem BitonicSorter.runs_merge (hA : A.Valid total) (hle : num ≤ total) (hmax : num ≤ 2 ^ 30) :
    A.Runs total (merge A num) (FOSketch.BitonicSorter.merge A.greater · num)
      ((mergeNet FOSketch.BitonicSorter.half true num num).flatMap A.comparatorAccesses) := by
  rw [funext (merge_eq A num), funext (FOSketch.BitonicSorter.merge_eq A.greater · num)]
  exact Arr.runs_runNet hA ((mergeNet_below _ true FOSketch.BitonicSorter.half_halves num num hmax).mono hle)

def OddEvenMergeSorter.sortComparators (num : Nat) : List Comparator :=
  if testPo2 num then oddEvenSortNet (Nat.log 2 num) else []

def OddEvenMergeSorter.mergeComparators (num : Nat) : List Comparator :=
  if 2 ≤ num ∧ testPo2 num then oddEvenMergeNet (Nat.log 2 num) else []

theorem OddEvenMergeSorter.runs_sort (hA : A.Valid total) (hle : num ≤ total) (hmax : num ≤ 2 ^ 30) :
    A.Runs total (sort A num) (FOSketch.OddEvenMergeSorter.sort A.greater · num)
      ((sortComparators num).flatMap A.comparatorAccesses) := by
  unfold sortComparators
  by_cases h : testPo2 num = true
  · obtain ⟨e, rfl⟩ := testPo2_iff.mp h
    rw [if_pos h, Nat.log_pow (by decide), funext (sort_eq A hmax),
      funext fun l => FOSketch.OddEvenMergeSorter.sort_eq A.greater l hmax]
    exact Arr.runs_runNet hA ((oddEvenSortNet_below e).mono hle)
  · have hsort : sort A num = some := funext fun t => by simp [sort, h]
    have hlist : (FOSketch.OddEvenMergeSorter.sort A.greater · num) = id :=
      funext fun l => by simp [FOSketch.OddEvenMergeSorter.sort, h]
    rw [if_neg h, hsort, hlist]
    exact Arr.runs_none A total

theorem OddEvenMergeSorter.runs_merge (hA : A.Valid total) (hle : num ≤ total) (hmax : num ≤ 2 ^ 30) :
    A.Runs total (merge A num) (FOSketch.OddEvenMergeSorter.merge A.greater · num)
      ((mergeComparators num).flatMap A.comparatorAccesses) := by
  unfold mergeComparators
  by_cases h : 2 ≤ num ∧ testPo2 num = true
  · obtain ⟨e, rfl⟩ := testPo2_iff.mp h.2
    obtain ⟨e, rfl⟩ : ∃ k, e = k + 1 := Nat.exists_eq_succ_of_ne_zero (by rintro rfl; exact absurd h.1 (by decide))
    rw [if_pos h, Nat.log_pow (by decide), funext (merge_eq A hmax),
      funext fun l => FOSketch.OddEvenMergeSorter.merge_eq A.greater l hmax]
    exact Arr.runs_runNet hA ((oddEvenMergeNet_below (e + 1)).mono hle)
  · have hmerge : merge A num = some := funext fun t => by
      unfold merge
      split_ifs with h2 h3
      · rfl
      · rfl
      · exact absurd ⟨not_lt.mp h2, by simpa using h3⟩ h
    have hlist : (FOSketch.OddEvenMergeSorter.merge A.greater · num) = id := funext fun l => by
      unfold FOSketch.OddEvenMergeSorter.merge
      split_ifs with h2 h3
      · rfl
      · rfl
      · exact absurd ⟨not_lt.mp h2, by simpa using h3⟩ h
    rw [if_neg h, hmerge, hlist]
    exact Arr.runs_none A total

/-- **The sorters in memory.** On an array of whole elements they do to the elements what they do to a list, and change
nothing else but the local array. -/
theorem sorters_refine (hA : A.Valid num) (hmax : num ≤ 2 ^ 30) :
    A.Refines num (BitonicSorter.sort A num) (FOSketch.BitonicSorter.sort A.greater · num) ∧
    A.Refines num (BitonicSorter.merge A num) (FOSketch.BitonicSorter.merge A.greater · num) ∧
    A.Refines num (OddEvenMergeSorter.sort A num) (FOSketch.OddEvenMergeSorter.sort A.greater · num) ∧
    A.Refines num (OddEvenMergeSorter.merge A num) (FOSketch.OddEvenMergeSorter.merge A.greater · num) :=
  ⟨(BitonicSorter.runs_sort hA le_rfl hmax).refines, (BitonicSorter.runs_merge hA le_rfl hmax).refines,
    (OddEvenMergeSorter.runs_sort hA le_rfl hmax).refines, (OddEvenMergeSorter.runs_merge hA le_rfl hmax).refines⟩

/-- Items of 8 bytes by their last byte. -/
def byLast : Arr := ⟨0, 8, 4096, fun x y => decide (y.getLastD 0 < x.getLastD 0)⟩

theorem valid_byLast : byLast.Valid 100 := ⟨.inr (.inl rfl), by decide, .inr (by decide)⟩

theorem sorters_refine_hundred :
    byLast.Refines 100 (BitonicSorter.sort byLast 100) (FOSketch.BitonicSorter.sort byLast.greater · 100) ∧
    byLast.Refines 100 (BitonicSorter.merge byLast 100) (FOSketch.BitonicSorter.merge byLast.greater · 100) ∧
    byLast.Refines 100 (OddEvenMergeSorter.sort byLast 100) (FOSketch.OddEvenMergeSorter.sort byLast.greater · 100) ∧
    byLast.Refines 100 (OddEvenMergeSorter.merge byLast 100) (FOSketch.OddEvenMergeSorter.merge byLast.greater · 100) :=
  sorters_refine valid_byLast (by decide)

/-- **The sorters are oblivious.** The accesses of a run are the same for all contents of memory and all comparisons. -/
theorem sorters_oblivious (hA : A.Valid num) (hmax : num ≤ 2 ^ 30) :
    A.Oblivious (BitonicSorter.sort · num) ∧ A.Oblivious (BitonicSorter.merge · num) ∧
    A.Oblivious (OddEvenMergeSorter.sort · num) ∧ A.Oblivious (OddEvenMergeSorter.merge · num) := by
  have hgreater (greater) : Arr.Valid { A with greater := greater } num := ⟨hA.whole, hA.small, hA.away⟩
  exact ⟨Arr.oblivious_of_runs num _ fun greater => ⟨_, BitonicSorter.runs_sort (hgreater greater) le_rfl hmax⟩,
    Arr.oblivious_of_runs num _ fun greater => ⟨_, BitonicSorter.runs_merge (hgreater greater) le_rfl hmax⟩,
    Arr.oblivious_of_runs num _ fun greater => ⟨_, OddEvenMergeSorter.runs_sort (hgreater greater) le_rfl hmax⟩,
    Arr.oblivious_of_runs num _ fun greater => ⟨_, OddEvenMergeSorter.runs_merge (hgreater greater) le_rfl hmax⟩⟩

theorem sorters_oblivious_hundred :
    byLast.Oblivious (BitonicSorter.sort · 100) ∧ byLast.Oblivious (BitonicSorter.merge · 100) ∧
    byLast.Oblivious (OddEvenMergeSorter.sort · 100) ∧ byLast.Oblivious (OddEvenMergeSorter.merge · 100) :=
  sorters_oblivious valid_byLast (by decide)

end Sorters

end FOSketch.Asm
