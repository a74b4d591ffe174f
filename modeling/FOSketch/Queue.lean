import FOSketch.Common
import FOSketch.Linked

/-!
# `Queue.c`

The message queue: a doubly linked list between `top` and `bottom`. `Linked q l` says that the queue holds the messages
`l`, the top first. Called one after the other the operations are those of a double-ended queue (`run_refines`), as long as
`nMsg` does not overflow.
-/

namespace FOSketch

open Linked

variable {M : Type*}

/-! ## The operations -/

/-- The queue and the links in the headers of the messages. -/
structure Queue (M : Type*) where
  next : M → Option M
  prev : M → Option M
  top : Option M
  bottom : Option M
  nMsg : Int

namespace Queue

def queue_init (next prev : M → Option M) : Queue M := ⟨next, prev, none, none, 0⟩

section Operations
variable [DecidableEq M]

def clear (q : Queue M) (msg : M) : Queue M :=
  { q with prev := Function.update q.prev msg none, next := Function.update q.next msg none }

def linkBack (q : Queue M) (new_msg : M) : Queue M :=
  let q := match q.bottom with
    | none => { q with bottom := some new_msg, top := some new_msg }
    | some b => { q with
        prev := Function.update q.prev b (some new_msg)
        next := Function.update q.next new_msg (some b)
        bottom := some new_msg }
  { q with nMsg := toInt32 (q.nMsg + 1) }

def linkFront (q : Queue M) (new_msg : M) : Queue M :=
  let q := match q.top with
    | none => { q with top := some new_msg, bottom := some new_msg }
    | some t => { q with
        next := Function.update q.next t (some new_msg)
        prev := Function.update q.prev new_msg (some t)
        top := some new_msg }
  { q with nMsg := toInt32 (q.nMsg + 1) }

def takeFront (q : Queue M) : Queue M × Option M :=
  match q.top with
  | none => (q, none)
  | some msg =>
    let top := q.prev msg
    ({ q with
      next := match top with
        | none => q.next
        | some p => Function.update q.next p none
      top := top
      bottom := if top = none then none else q.bottom
      nMsg := toInt32 (q.nMsg - 1) }, some msg)

/-- `pop_back` under the lock; `none` where it reads the header of a null pointer. -/
def takeBack (q : Queue M) : Option (Queue M × M) :=
  match q.bottom with
  | none => none
  | some msg =>
    let bottom := q.next msg
    some ({ q with
      prev := match bottom with
        | none => q.prev
        | some n => Function.update q.prev n none
      bottom := bottom
      top := if bottom = none then none else q.top
      nMsg := toInt32 (q.nMsg - 1) }, msg)

def push_back (q : Queue M) (new_msg : M) : Queue M := (q.clear new_msg).linkBack new_msg

def push_front (q : Queue M) (new_msg : M) : Queue M := (q.clear new_msg).linkFront new_msg

def pop_front (q : Queue M) : Queue M × Option M :=
  match q.takeFront with
  | (q, none) => (q, none)
  | (q, some msg) => (q.clear msg, some msg)

/-- `pop_back`, whose test comes before the lock. -/
def pop_back (q : Queue M) : Option (Queue M × Option M) :=
  if q.bottom = none then some (q, none)
  else q.takeBack.map fun r => (r.1.clear r.2, some r.2)

end Operations

/-! ## The invariant -/

/-- The queue holds the messages `l`, the top first. -/
structure Holds (q : Queue M) (l : List M) : Prop where
  top : q.top = l.head?
  bottom : q.bottom = l.getLast?
  nodup : l.Nodup
  chain : Chain q.next q.prev none l none
  count : q.nMsg = toInt32 l.length

theorem toInt32_add (x y : Int) : toInt32 (toInt32 x + y) = toInt32 (x + y) := by
  unfold toInt32
  generalize 4294967296 = n
  exact Int.bmod_add_bmod

theorem holds_init (next prev : M → Option M) : Holds (queue_init next prev) [] :=
  ⟨rfl, rfl, List.nodup_nil, trivial, Int.zero_bmod.symm⟩

section Links
variable {q q' q'' : Queue M} {x : M}

def Cleared (q : Queue M) (m : M) : Prop := q.next m = none ∧ q.prev m = none

/-- The links of `x` are the same. -/
def SameLinks (q q' : Queue M) (x : M) : Prop := q'.next x = q.next x ∧ q'.prev x = q.prev x

theorem SameLinks.cleared (h : SameLinks q q' x) (hx : Cleared q x) : Cleared q' x :=
  ⟨h.1.trans hx.1, h.2.trans hx.2⟩

theorem SameLinks.trans (h : SameLinks q q' x) (h' : SameLinks q' q'' x) : SameLinks q q'' x :=
  ⟨h'.1.trans h.1, h'.2.trans h.2⟩

end Links

section Operations
variable [DecidableEq M] {q : Queue M} {l : List M} {m : M}

/-- Links of messages outside do not matter. -/
theorem Holds.clear (h : Holds q l) (hm : m ∉ l) : Holds (q.clear m) l :=
  ⟨h.top, h.bottom, h.nodup, h.chain.update hm none none, h.count⟩

theorem cleared_clear (q : Queue M) (m : M) : Cleared (q.clear m) m :=
  ⟨Function.update_self _ _ _, Function.update_self _ _ _⟩

theorem sameLinks_clear {x : M} (hx : x ≠ m) : SameLinks q (q.clear m) x :=
  ⟨Function.update_of_ne hx _ _, Function.update_of_ne hx _ _⟩

theorem Holds.sameLinks_linkBack (h : Holds q l) {x : M} (hx : x ∉ l) (hm : x ≠ m) : SameLinks q (q.linkBack m) x := by
  have hbottom := h.bottom
  unfold SameLinks linkBack
  cases hb : q.bottom with
  | none => exact ⟨rfl, rfl⟩
  | some b =>
    have hmem : b ∈ l := List.mem_of_getLast? (hbottom.symm.trans hb)
    exact ⟨Function.update_of_ne hm _ _, Function.update_of_ne (ne_of_mem_of_not_mem hmem hx).symm _ _⟩

theorem Holds.sameLinks_linkFront (h : Holds q l) {x : M} (hx : x ∉ l) (hm : x ≠ m) : SameLinks q (q.linkFront m) x := by
  have htop := h.top
  unfold SameLinks linkFront
  cases ht : q.top with
  | none => exact ⟨rfl, rfl⟩
  | some t =>
    have hmem : t ∈ l := List.mem_of_head? (htop.symm.trans ht)
    exact ⟨Function.update_of_ne (ne_of_mem_of_not_mem hmem hx).symm _ _, Function.update_of_ne hm _ _⟩

theorem Holds.linkBack (h : Holds q l) (hm : m ∉ l) (hnext : q.next m = none) (hprev : q.prev m = none) :
    Holds (q.linkBack m) (l ++ [m]) := by
  have hbottom := h.bottom
  have hcount : toInt32 (q.nMsg + 1) = toInt32 (l ++ [m]).length := by
    rw [h.count, toInt32_add, List.length_append, List.length_singleton, Nat.cast_add, Nat.cast_one]
  have hnodup : (l ++ [m]).Nodup := List.nodup_append.mpr
    ⟨h.nodup, List.nodup_singleton m, fun a ha b hb => by
      rw [List.mem_singleton.mp hb]
      exact ne_of_mem_of_not_mem ha hm⟩
  rcases List.eq_nil_or_concat l with rfl | ⟨l, b, rfl⟩
  · unfold linkBack
    rw [show q.bottom = none from hbottom]
    exact ⟨rfl, rfl, hnodup, ⟨hnext, hprev, trivial⟩, hcount⟩
  · rw [List.concat_eq_append] at *
    have hbl : b ∉ l := fun hb => (List.nodup_append.mp h.nodup).2.2 b hb b (List.mem_singleton_self b) rfl
    have hmb : m ≠ b := (ne_of_mem_of_not_mem (List.mem_append_right l (List.mem_singleton_self b)) hm).symm
    rw [List.getLast?_concat] at hbottom
    unfold linkBack
    rw [hbottom]
    refine ⟨?_, List.getLast?_concat.symm, hnodup, chain_append.mpr ⟨?_, ?_⟩, hcount⟩
    · have hne : l ++ [b] ≠ [] := List.append_ne_nil_of_right_ne_nil l (List.cons_ne_nil b [])
      rw [List.head?_append_of_ne_nil _ hne]
      exact h.top
    · exact (h.chain.relink_below hbl (some m)).congr
        (fun x hx => Function.update_of_ne (ne_of_mem_of_not_mem hx hm) _ _) fun _ _ => rfl
    · rw [List.getLast?_concat]
      exact ⟨Function.update_self _ _ _, (Function.update_of_ne hmb _ _).trans hprev, trivial⟩

theorem Holds.linkFront (h : Holds q l) (hm : m ∉ l) (hnext : q.next m = none) (hprev : q.prev m = none) :
    Holds (q.linkFront m) (m :: l) := by
  have htop := h.top
  have hcount : toInt32 (q.nMsg + 1) = toInt32 (m :: l).length := by
    rw [h.count, toInt32_add, List.length_cons, Nat.cast_add, Nat.cast_one]
  have hnodup : (m :: l).Nodup := List.nodup_cons.mpr ⟨hm, h.nodup⟩
  cases l with
  | nil =>
    unfold linkFront
    rw [show q.top = none from htop]
    exact ⟨rfl, rfl, hnodup, ⟨hnext, hprev, trivial⟩, hcount⟩
  | cons t l =>
    have htl : t ∉ l := (List.nodup_cons.mp h.nodup).1
    have hmt : m ≠ t := fun he => hm (he ▸ List.mem_cons_self)
    unfold linkFront
    rw [show q.top = some t from htop]
    refine ⟨rfl, ?_, hnodup, ⟨?_, Function.update_self _ _ _, ?_⟩, hcount⟩
    · rw [List.getLast?_cons_cons]
      exact h.bottom
    · exact (Function.update_of_ne hmt _ _).trans hnext
    · exact (h.chain.relink_above htl (some m)).congr (fun _ _ => rfl)
        fun x hx => Function.update_of_ne (ne_of_mem_of_not_mem hx hm) _ _

theorem Holds.takeFront_nil (h : Holds q []) : q.takeFront = (q, none) := by
  unfold takeFront
  rw [show q.top = none from h.top]

theorem Holds.takeFront_cons (h : Holds q (m :: l)) : ∃ q', q.takeFront = (q', some m) ∧ Holds q' l ∧
    ∀ x ∉ l, SameLinks q q' x := by
  obtain ⟨hm, hnodup⟩ := List.nodup_cons.mp h.nodup
  have hcount : toInt32 (q.nMsg - 1) = toInt32 l.length := by
    rw [h.count, sub_eq_add_neg, toInt32_add, List.length_cons, Nat.cast_add, Nat.cast_one, add_neg_cancel_right]
  have hbottom := h.bottom
  obtain ⟨-, hprev, hchain⟩ := h.chain
  rw [Option.or_none] at hprev
  unfold takeFront
  rw [show q.top = some m from h.top]
  dsimp only
  rw [hprev]
  cases l with
  | nil => exact ⟨_, rfl, ⟨rfl, rfl, hnodup, trivial, hcount⟩, fun _ _ => ⟨rfl, rfl⟩⟩
  | cons t l =>
    refine ⟨_, rfl, ⟨rfl, ?_, hnodup, ?_, hcount⟩, fun x hx => ⟨?_, rfl⟩⟩
    · rw [List.getLast?_cons_cons] at hbottom
      exact hbottom
    · exact hchain.relink_above (List.nodup_cons.mp hnodup).1 none
    · exact Function.update_of_ne (ne_of_mem_of_not_mem List.mem_cons_self hx).symm _ _

theorem Holds.takeBack_concat (h : Holds q (l ++ [m])) : ∃ q', q.takeBack = some (q', m) ∧ Holds q' l ∧
    ∀ x ∉ l, SameLinks q q' x := by
  have hnodup : l.Nodup := (List.nodup_append.mp h.nodup).1
  have hcount : toInt32 (q.nMsg - 1) = toInt32 l.length := by
    rw [h.count, sub_eq_add_neg, toInt32_add, List.length_append, List.length_singleton, Nat.cast_add, Nat.cast_one,
      add_neg_cancel_right]
  have htop := h.top
  obtain ⟨hchain, hnext, -, -⟩ := chain_append.mp h.chain
  rw [Option.or_none] at hnext
  unfold takeBack
  rw [h.bottom, List.getLast?_concat]
  dsimp only
  rw [hnext]
  rcases List.eq_nil_or_concat l with rfl | ⟨l, b, rfl⟩
  · exact ⟨_, rfl, ⟨rfl, rfl, hnodup, trivial, hcount⟩, fun _ _ => ⟨rfl, rfl⟩⟩
  · rw [List.concat_eq_append] at *
    have hbl : b ∉ l := fun hb => (List.nodup_append.mp hnodup).2.2 b hb b (List.mem_singleton_self b) rfl
    have hne : l ++ [b] ≠ [] := List.append_ne_nil_of_right_ne_nil l (List.cons_ne_nil b [])
    rw [List.getLast?_concat]
    refine ⟨_, rfl, ⟨?_, List.getLast?_concat.symm, hnodup, hchain.relink_below hbl none, hcount⟩, fun x hx => ⟨rfl, ?_⟩⟩
    · rw [List.head?_append_of_ne_nil _ hne] at htop
      exact htop
    · have hb : b ∈ l ++ [b] := List.mem_append_right l (List.mem_singleton_self b)
      exact Function.update_of_ne (ne_of_mem_of_not_mem hb hx).symm _ _

/-! ## Calls -/

inductive Op (M : Type*) where
  | push_back (new_msg : M)
  | push_front (new_msg : M)
  | pop_front
  | pop_back

def Op.pushed : Op M → Option M
  | .push_back new_msg => some new_msg
  | .push_front new_msg => some new_msg
  | _ => none

def step (q : Queue M) : Op M → Option (Queue M × List (Option M))
  | .push_back new_msg => some (q.push_back new_msg, [])
  | .push_front new_msg => some (q.push_front new_msg, [])
  | .pop_front => some (q.pop_front.1, [q.pop_front.2])
  | .pop_back => q.pop_back.map fun r => (r.1, [r.2])

def run : Queue M → List (Op M) → Option (Queue M × List (Option M))
  | q, [] => some (q, [])
  | q, op :: ops => (step q op).bind fun r => (run r.1 ops).map fun r' => (r'.1, r.2 ++ r'.2)

/-- A double-ended queue: a list whose ends are the top and the bottom. -/
def act (l : List M) : Op M → List M × List (Option M)
  | .push_back new_msg => (l ++ [new_msg], [])
  | .push_front new_msg => (new_msg :: l, [])
  | .pop_front => (l.tail, [l.head?])
  | .pop_back => (l.dropLast, [l.getLast?])

def actAll : List M → List (Op M) → List M × List (Option M)
  | l, [] => (l, [])
  | l, op :: ops => ((actAll (act l op).1 ops).1, (act l op).2 ++ (actAll (act l op).1 ops).2)

/-- No message is pushed that is in the queue already. -/
def Fresh : List M → List (Op M) → Prop
  | _, [] => True
  | l, op :: ops => (∀ m, op.pushed = some m → m ∉ l) ∧ Fresh (act l op).1 ops

/-! ## Refinement -/

theorem Holds.push_back (h : Holds q l) (hm : m ∉ l) :
    Holds (q.push_back m) (l ++ [m]) ∧ ∀ x ∉ l, x ≠ m → SameLinks q (q.push_back m) x := by
  have hclear := h.clear hm
  obtain ⟨hnext, hprev⟩ := cleared_clear q m
  exact ⟨hclear.linkBack hm hnext hprev, fun x hx hxm => (sameLinks_clear hxm).trans (hclear.sameLinks_linkBack hx hxm)⟩

theorem Holds.push_front (h : Holds q l) (hm : m ∉ l) :
    Holds (q.push_front m) (m :: l) ∧ ∀ x ∉ l, x ≠ m → SameLinks q (q.push_front m) x := by
  have hclear := h.clear hm
  obtain ⟨hnext, hprev⟩ := cleared_clear q m
  exact ⟨hclear.linkFront hm hnext hprev, fun x hx hxm => (sameLinks_clear hxm).trans (hclear.sameLinks_linkFront hx hxm)⟩

theorem Holds.pop_front_nil (h : Holds q []) : q.pop_front = (q, none) := by
  unfold pop_front
  rw [h.takeFront_nil]

theorem Holds.pop_front_cons (h : Holds q (m :: l)) :
    ∃ q', q.pop_front = (q', some m) ∧ Holds q' l ∧ Cleared q' m ∧ ∀ x ∉ m :: l, SameLinks q q' x := by
  obtain ⟨hm, -⟩ := List.nodup_cons.mp h.nodup
  obtain ⟨q', htake, hholds, hsame⟩ := h.takeFront_cons
  refine ⟨q'.clear m, ?_, hholds.clear hm, cleared_clear q' m, fun x hx => ?_⟩
  · unfold pop_front
    rw [htake]
  · obtain ⟨hxm, hxl⟩ := List.ne_and_not_mem_of_not_mem_cons hx
    exact (hsame x hxl).trans (sameLinks_clear hxm)

theorem Holds.pop_back_nil (h : Holds q []) : q.pop_back = some (q, none) := by
  have hbottom : q.bottom = none := h.bottom
  unfold pop_back
  rw [if_pos hbottom]

theorem Holds.pop_back_concat (h : Holds q (l ++ [m])) :
    ∃ q', q.pop_back = some (q', some m) ∧ Holds q' l ∧ Cleared q' m ∧ ∀ x ∉ l ++ [m], SameLinks q q' x := by
  have hm : m ∉ l := fun hm => (List.nodup_append.mp h.nodup).2.2 m hm m (List.mem_singleton_self m) rfl
  have hbottom : q.bottom ≠ none := by
    rw [h.bottom, List.getLast?_concat]
    exact Option.some_ne_none m
  obtain ⟨q', htake, hholds, hsame⟩ := h.takeBack_concat
  refine ⟨q'.clear m, ?_, hholds.clear hm, cleared_clear q' m, fun x hx => ?_⟩
  · unfold pop_back
    rw [if_neg hbottom, htake]
    rfl
  · have hxm : x ≠ m := fun he => hx (he ▸ List.mem_append_right l (List.mem_singleton_self _))
    exact (hsame x fun hxl => hx (List.mem_append_left _ hxl)).trans (sameLinks_clear hxm)

/-- **One call**: the queue and the result are those of the deque, and the links of other messages do not change. -/
theorem Holds.step (h : Holds q l) (op : Op M) (hfresh : ∀ m, op.pushed = some m → m ∉ l) :
    ∃ q', Queue.step q op = some (q', (act l op).2) ∧ Holds q' (act l op).1 ∧
      (∀ x ∉ l, op.pushed ≠ some x → SameLinks q q' x) ∧ ∀ x, some x ∈ (act l op).2 → Cleared q' x := by
  cases op with
  | push_back m =>
    obtain ⟨hholds, hsame⟩ := h.push_back (hfresh m rfl)
    exact ⟨_, rfl, hholds, fun x hx hne => hsame x hx fun he => hne (congrArg some he.symm),
      fun x hx => absurd hx List.not_mem_nil⟩
  | push_front m =>
    obtain ⟨hholds, hsame⟩ := h.push_front (hfresh m rfl)
    exact ⟨_, rfl, hholds, fun x hx hne => hsame x hx fun he => hne (congrArg some he.symm),
      fun x hx => absurd hx List.not_mem_nil⟩
  | pop_front =>
    cases l with
    | nil =>
      refine ⟨q, ?_, h, fun _ _ _ => ⟨rfl, rfl⟩, fun x hx => absurd (List.mem_singleton.mp hx) (Option.some_ne_none x)⟩
      rw [Queue.step, h.pop_front_nil]
      rfl
    | cons m l =>
      obtain ⟨q', hpop, hholds, hcleared, hsame⟩ := h.pop_front_cons
      refine ⟨q', ?_, hholds, fun x hx _ => hsame x hx, fun x hx => ?_⟩
      · rw [Queue.step, hpop]
        rfl
      · obtain rfl := Option.some.inj (List.mem_singleton.mp hx)
        exact hcleared
  | pop_back =>
    rcases List.eq_nil_or_concat l with rfl | ⟨l, m, rfl⟩
    · refine ⟨q, ?_, h, fun _ _ _ => ⟨rfl, rfl⟩, fun x hx => absurd (List.mem_singleton.mp hx) (Option.some_ne_none x)⟩
      rw [Queue.step, h.pop_back_nil]
      rfl
    · rw [List.concat_eq_append] at *
      obtain ⟨q', hpop, hholds, hcleared, hsame⟩ := h.pop_back_concat
      have hact : act (l ++ [m]) .pop_back = (l, [some m]) := by
        rw [act, List.dropLast_concat, List.getLast?_concat]
      rw [hact]
      refine ⟨q', ?_, hholds, fun x hx _ => hsame x hx, fun x hx => ?_⟩
      · rw [Queue.step, hpop]
        rfl
      · obtain rfl := Option.some.inj (List.mem_singleton.mp hx)
        exact hcleared

omit [DecidableEq M] in
theorem mem_act_of_left {x : M} {op : Op M} (hx : x ∈ l) (hleft : x ∉ (act l op).1) : some x ∈ (act l op).2 := by
  cases op with
  | push_back m => exact absurd (List.mem_append_left [m] hx) hleft
  | push_front m => exact absurd (List.mem_cons_of_mem m hx) hleft
  | pop_front =>
    cases l with
    | nil => exact absurd hx List.not_mem_nil
    | cons m l =>
      rcases List.mem_cons.mp hx with rfl | hx
      · exact List.mem_singleton_self _
      · exact absurd hx hleft
  | pop_back =>
    rcases List.eq_nil_or_concat l with rfl | ⟨l, m, rfl⟩
    · exact absurd hx List.not_mem_nil
    · rw [List.concat_eq_append] at *
      rw [act, List.dropLast_concat] at hleft
      rw [act, List.getLast?_concat]
      rcases List.mem_append.mp hx with hx | hx
      · exact absurd hx hleft
      · rw [List.mem_singleton.mp hx]
        exact List.mem_singleton_self _

omit [DecidableEq M] in
theorem mem_act_of_pushed {x : M} {op : Op M} (h : op.pushed = some x) : x ∈ (act l op).1 := by
  cases op with
  | push_back m =>
    rw [Option.some.inj h]
    exact List.mem_append_right l (List.mem_singleton_self x)
  | push_front m =>
    rw [Option.some.inj h]
    exact List.mem_cons_self
  | pop_front => exact absurd h (Option.some_ne_none x).symm
  | pop_back => exact absurd h (Option.some_ne_none x).symm

/-- **All calls**: in addition, what was returned and is not in the queue has no links. -/
theorem Holds.run {ops : List (Op M)} (h : Holds q l) (hfresh : Fresh l ops) {before : List (Option M)}
    (hbefore : ∀ x, some x ∈ before → x ∉ l → Cleared q x) :
    ∃ q', Queue.run q ops = some (q', (actAll l ops).2) ∧ Holds q' (actAll l ops).1 ∧
      ∀ x, some x ∈ before ++ (actAll l ops).2 → x ∉ (actAll l ops).1 → Cleared q' x := by
  induction ops generalizing q l before with
  | nil =>
    refine ⟨q, rfl, h, fun x hx hl => hbefore x ?_ hl⟩
    rwa [actAll, List.append_nil] at hx
  | cons op ops ih =>
    obtain ⟨q₁, hstep, hholds, hsame, hcleared⟩ := h.step op hfresh.1
    have hnext : ∀ x, some x ∈ before ++ (act l op).2 → x ∉ (act l op).1 → Cleared q₁ x := by
      intro x hx hout
      by_cases hl : x ∈ l
      · exact hcleared x (mem_act_of_left hl hout)
      · rcases List.mem_append.mp hx with hx | hx
        · exact (hsame x hl fun hp => hout (mem_act_of_pushed hp)).cleared (hbefore x hx hl)
        · exact hcleared x hx
    obtain ⟨q₂, hrun, hholds₂, hcleared₂⟩ := ih hholds hfresh.2 hnext
    refine ⟨q₂, ?_, hholds₂, fun x hx => hcleared₂ x (by rwa [List.append_assoc])⟩
    rw [Queue.run, hstep, Option.bind_some, hrun]
    rfl

theorem toInt32_of_le {n : Nat} (h : n ≤ 2147483647) : toInt32 n = n := by
  unfold toInt32
  rw [Int.bmod_eq_of_le]
  · omega
  · omega

/-- **The queue is a deque** while `nMsg` does not overflow: the pops return what those of the deque return, the links lead
through its contents in both directions, and returned messages have no links. -/
theorem run_refines (next prev : M → Option M) {ops : List (Op M)} (hfresh : Fresh [] ops) :
    ∃ q, run (queue_init next prev) ops = some (q, (actAll [] ops).2) ∧
      (∀ n, (actAll [] ops).1.length ≤ n →
        walk q.prev n q.top = (actAll [] ops).1 ∧ walk q.next n q.bottom = (actAll [] ops).1.reverse) ∧
      ((actAll [] ops).1.length ≤ 2147483647 → q.nMsg = (actAll [] ops).1.length) ∧
      ∀ x, some x ∈ (actAll [] ops).2 → x ∉ (actAll [] ops).1 → Cleared q x := by
  have hbefore : ∀ x, some x ∈ ([] : List (Option M)) → x ∉ ([] : List M) → Cleared (queue_init next prev) x :=
    fun x hx => absurd hx List.not_mem_nil
  obtain ⟨q, hrun, hholds, hcleared⟩ := (holds_init next prev).run hfresh hbefore
  refine ⟨q, hrun, fun n hn => ⟨?_, ?_⟩, fun hmax => hholds.count.trans (toInt32_of_le hmax), hcleared⟩
  · rw [hholds.top]
    exact hholds.chain.walk_prev hn
  · rw [hholds.bottom]
    exact hholds.chain.walk_next hn

/-- Two messages, and the older one is popped. -/
theorem run_refines_two :
    ∃ q : Queue Nat, run (queue_init (fun _ => none) fun _ => none) [.push_back 1, .push_back 2, .pop_front] =
        some (q, [some 1]) ∧ (∀ n, 1 ≤ n → walk q.prev n q.top = [2] ∧ walk q.next n q.bottom = [2]) ∧ q.nMsg = 1 ∧
        ∀ x, some x ∈ [some 1] → x ∉ [2] → Cleared q x := by
  have hfresh : Fresh [] [Op.push_back 1, .push_back 2, .pop_front] := by
    refine ⟨fun m _ => List.not_mem_nil, fun m hm => ?_, fun m hm => absurd hm (Option.some_ne_none m).symm, trivial⟩
    obtain rfl := Option.some.inj hm
    decide
  obtain ⟨q, hrun, hwalk, hnMsg, hcleared⟩ := run_refines (fun _ => none) (fun _ => none) hfresh
  exact ⟨q, hrun, hwalk, hnMsg (by decide), hcleared⟩

/-! ### Many messages -/

omit [DecidableEq M] in
theorem actAll_push_back (l ms : List M) : actAll l (ms.map Op.push_back) = (l ++ ms, []) := by
  induction ms generalizing l with
  | nil => rw [List.append_nil]; rfl
  | cons m ms ih =>
    rw [List.map_cons, actAll, act, ih, List.append_assoc]
    rfl

omit [DecidableEq M] in
theorem fresh_push_back {l ms : List M} (h : (l ++ ms).Nodup) : Fresh l (ms.map Op.push_back) := by
  induction ms generalizing l with
  | nil => trivial
  | cons m ms ih =>
    refine ⟨fun x hx hl => ?_, ih (by rwa [act, List.append_assoc])⟩
    obtain rfl := Option.some.inj hx
    exact (List.nodup_append.mp h).2.2 m hl m List.mem_cons_self rfl

end Operations

theorem run_push_back (n : Nat) :
    Fresh [] ((List.range n).map Op.push_back) ∧ (actAll [] ((List.range n).map Op.push_back)).1.length = n ∧
      ∃ q, run (queue_init (fun _ => none) fun _ => none) ((List.range n).map Op.push_back) = some (q, []) ∧
        q.nMsg = toInt32 n := by
  have hfresh : Fresh [] ((List.range n).map Op.push_back) := fresh_push_back List.nodup_range
  have hbefore : ∀ x : Nat, some x ∈ ([] : List (Option Nat)) → x ∉ ([] : List Nat) →
      Cleared (queue_init (fun _ => none) fun _ => none) x := fun x hx => absurd hx List.not_mem_nil
  obtain ⟨q, hrun, hholds, -⟩ := (holds_init (fun _ => none) fun _ => none).run hfresh hbefore
  have hcount := hholds.count
  rw [actAll_push_back] at hrun hcount ⊢
  rw [List.nil_append, List.length_range] at hcount ⊢
  exact ⟨hfresh, rfl, q, hrun, hcount⟩

/-- `nMsg` of `2 ^ 31` messages is negative. -/
theorem nMsg_overflow :
    Fresh [] ((List.range 2147483648).map Op.push_back) ∧
      (actAll [] ((List.range 2147483648).map Op.push_back)).1.length = 2147483648 ∧
      ∃ q, run (queue_init (fun _ => none) fun _ => none) ((List.range 2147483648).map Op.push_back) = some (q, []) ∧
        q.nMsg = -2147483648 := by
  have hint : toInt32 (2147483648 : Nat) = -2147483648 := by decide
  have h := run_push_back 2147483648
  rwa [hint] at h

end Queue

end FOSketch
