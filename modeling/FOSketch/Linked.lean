import Mathlib

/-!
# Doubly linked lists

The two links of every node are functions. `Chain next prev above l below` says that the nodes of `l` are linked in their
order, with `above` and `below` at the ends; it splits at every place (`chain_append`). Changing a link at one end changes
the end (`Chain.relink_above`, `Chain.relink_below`), and walking along the links visits the list (`Chain.walk_prev`,
`Chain.walk_next`).
-/

namespace FOSketch.Linked

variable {M : Type*} {next prev next' prev' : M → Option M}

/-- The links of the nodes of `l`. -/
def Chain (next prev : M → Option M) : Option M → List M → Option M → Prop
  | _, [], _ => True
  | above, m :: l, below => next m = above ∧ prev m = l.head?.or below ∧ Chain next prev (some m) l below

/-- At most `n` nodes from a link on. -/
def walk (step : M → Option M) : Nat → Option M → List M
  | 0, _ => []
  | _, none => []
  | n + 1, some m => m :: walk step n (step m)

theorem Chain.congr {l : List M} {above below : Option M} (h : Chain next prev above l below)
    (hnext : ∀ m ∈ l, next' m = next m) (hprev : ∀ m ∈ l, prev' m = prev m) : Chain next' prev' above l below := by
  induction l generalizing above with
  | nil => trivial
  | cons m l ih =>
    obtain ⟨h1, h2, h3⟩ := h
    refine ⟨(hnext m List.mem_cons_self).trans h1, (hprev m List.mem_cons_self).trans h2, ?_⟩
    exact ih h3 (fun x hx => hnext x (List.mem_cons_of_mem m hx)) fun x hx => hprev x (List.mem_cons_of_mem m hx)

theorem chain_append {l r : List M} {above below : Option M} :
    Chain next prev above (l ++ r) below ↔
      Chain next prev above l (r.head?.or below) ∧ Chain next prev (l.getLast?.or above) r below := by
  induction l generalizing above with
  | nil => exact (and_iff_right trivial).symm
  | cons m l ih =>
    have hlast : (m :: l).getLast?.or above = l.getLast?.or (some m) := by
      cases l with
      | nil => rfl
      | cons x l => rw [List.getLast?_cons_cons, List.getLast?_cons]; rfl
    have hhead : (l ++ r).head?.or below = l.head?.or (r.head?.or below) := by
      rw [List.head?_append, Option.or_assoc]
    rw [List.cons_append, Chain, Chain, ih, hlast, hhead]
    constructor
    · rintro ⟨h1, h2, h3, h4⟩
      exact ⟨⟨h1, h2, h3⟩, h4⟩
    · rintro ⟨⟨h1, h2, h3⟩, h4⟩
      exact ⟨h1, h2, h3, h4⟩

section Update
variable [DecidableEq M] {l : List M} {above below : Option M} {m : M}

/-- Links of other nodes do not matter. -/
theorem Chain.update (h : Chain next prev above l below) (hm : m ∉ l) (x y : Option M) :
    Chain (Function.update next m x) (Function.update prev m y) above l below :=
  h.congr (fun _ hx => Function.update_of_ne (ne_of_mem_of_not_mem hx hm) _ _)
    fun _ hx => Function.update_of_ne (ne_of_mem_of_not_mem hx hm) _ _

theorem Chain.relink_above (h : Chain next prev above (m :: l) below) (hm : m ∉ l) (x : Option M) :
    Chain (Function.update next m x) prev x (m :: l) below := by
  obtain ⟨-, h2, h3⟩ := h
  refine ⟨Function.update_self _ _ _, h2, h3.congr (fun y hy => ?_) fun _ _ => rfl⟩
  exact Function.update_of_ne (ne_of_mem_of_not_mem hy hm) _ _

theorem Chain.relink_below (h : Chain next prev above (l ++ [m]) below) (hm : m ∉ l) (x : Option M) :
    Chain next (Function.update prev m x) above (l ++ [m]) x := by
  rw [chain_append] at h ⊢
  obtain ⟨h1, h2, -, -⟩ := h
  refine ⟨h1.congr (fun _ _ => rfl) fun y hy => ?_, h2, Function.update_self _ _ _, trivial⟩
  exact Function.update_of_ne (ne_of_mem_of_not_mem hy hm) _ _

end Update

theorem Chain.walk_prev {l : List M} {above : Option M} (h : Chain next prev above l none) {n : Nat} (hn : l.length ≤ n) :
    walk prev n l.head? = l := by
  induction l generalizing above n with
  | nil => cases n <;> rfl
  | cons m l ih =>
    obtain ⟨n, rfl⟩ : ∃ k, n = k + 1 := ⟨n - 1, by rw [List.length_cons] at hn; omega⟩
    obtain ⟨-, h2, h3⟩ := h
    rw [List.head?_cons, walk, h2, Option.or_none, ih h3 (Nat.le_of_succ_le_succ hn)]

theorem Chain.walk_next {l : List M} {below : Option M} (h : Chain next prev none l below) {n : Nat} (hn : l.length ≤ n) :
    walk next n l.getLast? = l.reverse := by
  induction l using List.reverseRecOn generalizing below n with
  | nil => cases n <;> rfl
  | append_singleton l m ih =>
    rw [List.length_append, List.length_singleton] at hn
    obtain ⟨n, rfl⟩ : ∃ k, n = k + 1 := ⟨n - 1, by omega⟩
    rw [chain_append] at h
    obtain ⟨h1, h2, -, -⟩ := h
    rw [List.getLast?_concat, walk, h2, Option.or_none, ih h1 (Nat.le_of_succ_le_succ hn), List.reverse_concat]

end FOSketch.Linked
