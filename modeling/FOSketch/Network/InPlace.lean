import FOSketch.Network.OddEven

/-!
# Networks run in place on a list

The same comparators on a list: the elements under the two wires change places. A network run in place permutes the
list, leaves everything past its range where it is, and moves the elements as the network of their keys moves the keys
(`run_key`); so what a network does to sequences decides what it does to lists (`pairwise_take_runList`).
-/

namespace FOSketch.Network

variable {α β : Type*}

def exchange (gt : α → α → Bool) (c : Comparator) (l : List α) : List α :=
  match l[c.lo]?, l[c.hi]? with
  | some x, some y => if c.up = gt x y then (l.set c.lo y).set c.hi x else l
  | _, _ => l

def runList (gt : α → α → Bool) (cs : List Comparator) (l : List α) : List α :=
  cs.foldl (fun m c => exchange gt c m) l

@[simp] theorem runList_nil (gt : α → α → Bool) (l : List α) : runList gt [] l = l := rfl

@[simp] theorem runList_cons (gt : α → α → Bool) (c : Comparator) (cs : List Comparator) (l : List α) :
    runList gt (c :: cs) l = runList gt cs (exchange gt c l) := rfl

theorem runList_append (gt : α → α → Bool) (cs ds : List Comparator) (l : List α) :
    runList gt (cs ++ ds) l = runList gt ds (runList gt cs l) := List.foldl_append

/-! ## What stays -/

theorem exchange_perm (gt : α → α → Bool) (c : Comparator) (l : List α) : (exchange gt c l).Perm l := by
  unfold exchange
  split
  · next x y hx hy =>
    obtain ⟨h1, rfl⟩ := List.getElem?_eq_some_iff.mp hx
    obtain ⟨h2, rfl⟩ := List.getElem?_eq_some_iff.mp hy
    split_ifs
    · exact List.set_set_perm h1 h2
    · exact List.Perm.refl l
  · exact List.Perm.refl l

theorem runList_perm (gt : α → α → Bool) (cs : List Comparator) (l : List α) : (runList gt cs l).Perm l := by
  induction cs generalizing l with
  | nil => exact List.Perm.refl l
  | cons c cs ih => exact (ih _).trans (exchange_perm gt c l)

@[simp] theorem length_runList (gt : α → α → Bool) (cs : List Comparator) (l : List α) :
    (runList gt cs l).length = l.length := (runList_perm gt cs l).length_eq

theorem exchange_append (gt : α → α → Bool) {c : Comparator} {l : List α} (hl : c.lo < l.length)
    (hh : c.hi < l.length) (r : List α) : exchange gt c (l ++ r) = exchange gt c l ++ r := by
  unfold exchange
  rw [List.getElem?_append_left hl, List.getElem?_append_left hh]
  split
  · split_ifs
    · rw [List.set_append_left _ _ hl, List.set_append_left _ _ (by rwa [List.length_set])]
    · rfl
  · rfl

theorem runList_append_right (gt : α → α → Bool) {cs : List Comparator} {l : List α} (h : Below l.length cs)
    (r : List α) : runList gt cs (l ++ r) = runList gt cs l ++ r := by
  induction cs generalizing l with
  | nil => rfl
  | cons c cs ih =>
    have hc := h c List.mem_cons_self
    rw [runList_cons, runList_cons, exchange_append gt hc.1 hc.2.1]
    refine ih fun d hd => ?_
    rw [(exchange_perm gt c l).length_eq]
    exact h d (List.mem_cons_of_mem c hd)

/-! ## Relabelling -/

theorem exchange_map (f : α → β) (gt : α → α → Bool) (gt' : β → β → Bool) (hgt : ∀ x y, gt x y = gt' (f x) (f y))
    (c : Comparator) (l : List α) : (exchange gt c l).map f = exchange gt' c (l.map f) := by
  unfold exchange
  rw [List.getElem?_map, List.getElem?_map]
  cases l[c.lo]? with
  | none => rfl
  | some x =>
    cases l[c.hi]? with
    | none => rfl
    | some y =>
      simp only [Option.map_some, hgt]
      split_ifs
      · rw [List.map_set, List.map_set]
      · rfl

/-- A network in place commutes with a map that the comparison factors through. -/
theorem runList_map (f : α → β) (gt : α → α → Bool) (gt' : β → β → Bool) (hgt : ∀ x y, gt x y = gt' (f x) (f y))
    (cs : List Comparator) (l : List α) : (runList gt cs l).map f = runList gt' cs (l.map f) := by
  induction cs generalizing l with
  | nil => rfl
  | cons c cs ih => rw [runList_cons, runList_cons, ih, exchange_map f gt gt' hgt]

/-! ## The sequence of a list -/

/-- The list as a sequence, `d` past its end. -/
def seq (d : α) (l : List α) (k : Nat) : α := l.getD k d

theorem seq_of_lt (d : α) {l : List α} {k : Nat} (hk : k < l.length) : seq d l k = l[k] := by
  rw [seq, List.getD_eq_getElem _ _ hk]

theorem seq_append_left (d : α) {l : List α} (r : List α) {k : Nat} (hk : k < l.length) :
    seq d (l ++ r) k = seq d l k := List.getD_append _ _ _ _ hk

theorem seq_append_right (d : α) (l r : List α) (k : Nat) : seq d (l ++ r) (l.length + k) = seq d r k := by
  rw [seq, List.getD_append_right _ _ _ _ (Nat.le_add_right _ _), Nat.add_sub_cancel_left, seq]

theorem seq_exchange (d : α) (gt : α → α → Bool) {c : Comparator} {l : List α} (hl : c.lo < l.length)
    (hh : c.hi < l.length) : seq d (exchange gt c l) = step gt c (seq d l) := by
  funext k
  unfold exchange
  rw [List.getElem?_eq_getElem hl, List.getElem?_eq_getElem hh]
  dsimp only
  split_ifs with h
  · rw [step_exchange gt (by rwa [seq_of_lt d hl, seq_of_lt d hh]), Equiv.swap_apply_def]
    rw [seq, List.getD_eq_getElem?_getD, List.getElem?_set, List.getElem?_set, List.length_set, if_pos hl, if_pos hh]
    rcases eq_or_ne k c.hi with rfl | h2
    · rw [if_pos rfl, Option.getD_some]
      by_cases h1 : c.hi = c.lo
      · rw [if_pos h1, seq_of_lt d hh]; simp only [h1]
      · rw [if_neg h1, if_pos rfl, seq_of_lt d hl]
    · rw [if_neg h2.symm, if_neg h2]
      rcases eq_or_ne k c.lo with rfl | h1
      · rw [if_pos rfl, if_pos rfl, Option.getD_some, seq_of_lt d hh]
      · rw [if_neg h1.symm, if_neg h1, seq, List.getD_eq_getElem?_getD]
  · rw [step_keep gt (by rwa [seq_of_lt d hl, seq_of_lt d hh])]

/-- A network in place is the network of the list's sequence. -/
theorem seq_runList (d : α) (gt : α → α → Bool) {cs : List Comparator} {l : List α} (h : Below l.length cs) :
    seq d (runList gt cs l) = run gt cs (seq d l) := by
  induction cs generalizing l with
  | nil => rfl
  | cons c cs ih =>
    have hc := h c List.mem_cons_self
    rw [runList_cons, run_cons, ← seq_exchange d gt hc.1 hc.2.1]
    refine ih fun e he => ?_
    rw [(exchange_perm gt c l).length_eq]
    exact h e (List.mem_cons_of_mem c he)

section Order
variable [LinearOrder β]

/-- `gt` compares the keys. -/
def Compares (gt : α → α → Bool) (key : α → β) : Prop := ∀ x y, gt x y = decide (key y < key x)

theorem run_key {gt : α → α → Bool} {key : α → β} (hgt : Compares gt key) (d : α) {cs : List Comparator} {l : List α}
    (h : Below l.length cs) : key ∘ seq d (runList gt cs l) = run Network.gt cs (key ∘ seq d l) := by
  rw [seq_runList d gt h]
  exact comp_run key gt Network.gt hgt cs _

theorem pairwise_take_iff (key : α → β) (d : α) {n : Nat} {l : List α} (hn : n ≤ l.length) :
    (l.take n).Pairwise (fun x y => key x ≤ key y) ↔ Ascending n (key ∘ seq d l) := by
  rw [List.pairwise_iff_getElem]
  constructor
  · intro h i j hij hj
    rcases hij.eq_or_lt with rfl | hij
    · exact le_refl _
    have := h i j (by rw [List.length_take]; omega) (by rw [List.length_take]; omega) hij
    rwa [List.getElem_take, List.getElem_take, ← seq_of_lt d, ← seq_of_lt d] at this
  · intro h i j hi hj hij
    rw [List.length_take] at hi hj
    rw [List.getElem_take, List.getElem_take, ← seq_of_lt d, ← seq_of_lt d]
    exact h i j hij.le (by omega)

/-- **A network in place** sorts the first `n` elements exactly when the network sorts the sequence of their keys. -/
theorem pairwise_take_runList {gt : α → α → Bool} {key : α → β} (hgt : Compares gt key) (d : α) {n : Nat}
    {cs : List Comparator} (h : Below n cs) {l : List α} (hn : n ≤ l.length) :
    ((runList gt cs l).take n).Pairwise (fun x y => key x ≤ key y) ↔
      Ascending n (run Network.gt cs (key ∘ seq d l)) := by
  rw [pairwise_take_iff key d (by rwa [length_runList]), run_key hgt d (h.mono hn)]

theorem valley_append (key : α → β) (d : α) {l r : List α} (hl : l.Pairwise fun x y => key y ≤ key x)
    (hr : r.Pairwise fun x y => key x ≤ key y) : Valley (l ++ r).length (key ∘ seq d (l ++ r)) := by
  refine ⟨l.length, by rw [List.length_append]; omega, fun i j hij hj => ?_, fun i j hi hij hj => ?_⟩
  · rcases hij.eq_or_lt with rfl | hij
    · exact le_refl _
    simp only [Function.comp_apply]
    rw [seq_append_left d r hj, seq_append_left d r (hij.trans hj), seq_of_lt d hj, seq_of_lt d (hij.trans hj)]
    exact List.pairwise_iff_getElem.mp hl i j _ hj hij
  · rcases hij.eq_or_lt with rfl | hij
    · exact le_refl _
    obtain ⟨i, rfl⟩ := Nat.exists_eq_add_of_le hi
    obtain ⟨j, rfl⟩ := Nat.exists_eq_add_of_le (hi.trans hij.le)
    rw [List.length_append] at hj
    have hj' : j < r.length := by omega
    have hi' : i < r.length := by omega
    simp only [Function.comp_apply]
    rw [seq_append_right, seq_append_right, seq_of_lt d hi', seq_of_lt d hj']
    exact List.pairwise_iff_getElem.mp hr i j hi' hj' (by omega)

end Order

end FOSketch.Network
