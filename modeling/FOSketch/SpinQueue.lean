import FOSketch.Deque
import FOSketch.Sections
import FOSketch.Threads

/-!
# The queue under its spin lock

`Threads` takes the sections of the queue as single steps. Here every access is a step of its own: the exchange and the loop
of `spin_lock`, the reads and writes of a section in the order of `Queue.c`, and the two writes that clear the links of a
message outside the lock. The memory is sequentially consistent.

A section takes place when it writes `bottom`, which `pop_back` tests without the lock. So if a message is pushed only
when all its earlier pushes were returned (`Owned`), then every run is one of `Threads` (`fine_refines`), and the threads
see the calls and returns of a double-ended queue (`fine_linearizable`).
-/

namespace FOSketch.SpinQueue

open Linked Queue Sections

variable {T : Type*} {M : Type}

/-! ## The memory -/

/-- A word of the queue, or a link of a message. -/
inductive Loc (M : Type) where
  | top
  | bottom
  | nMsg
  | next (msg : M)
  | prev (msg : M)
deriving DecidableEq

@[reducible] def Val (M : Type) : Loc M → Type
  | .nMsg => Int
  | _ => Option M

abbrev Mem (M : Type) := ∀ x : Loc M, Val M x

def mem (q : Queue M) : Mem M
  | .top => q.top
  | .bottom => q.bottom
  | .nMsg => q.nMsg
  | .next msg => q.next msg
  | .prev msg => q.prev msg

def queue (m : Mem M) : Queue M := ⟨fun msg => m (.next msg), fun msg => m (.prev msg), m .top, m .bottom, m .nMsg⟩

theorem queue_mem (q : Queue M) : queue (mem q) = q := rfl

theorem mem_queue (m : Mem M) : mem (queue m) = m := by
  funext x
  cases x <;> rfl

section Access
variable (q : Queue M) (msg : M) (v : Option M)

@[simp] theorem mem_top : mem q .top = q.top := rfl
@[simp] theorem mem_bottom : mem q .bottom = q.bottom := rfl
@[simp] theorem mem_nMsg : mem q .nMsg = q.nMsg := rfl
@[simp] theorem mem_next : mem q (.next msg) = q.next msg := rfl
@[simp] theorem mem_prev : mem q (.prev msg) = q.prev msg := rfl

variable [DecidableEq M]

@[simp] theorem update_top : Function.update (mem q) .top v = mem { q with top := v } := by
  funext x
  cases x <;> simp [mem]

@[simp] theorem update_bottom : Function.update (mem q) .bottom v = mem { q with bottom := v } := by
  funext x
  cases x <;> simp [mem]

@[simp] theorem update_nMsg (n : Int) : Function.update (mem q) .nMsg n = mem { q with nMsg := n } := by
  funext x
  cases x <;> simp [mem]

@[simp] theorem update_next :
    Function.update (mem q) (.next msg) v = mem { q with next := Function.update q.next msg v } := by
  funext x
  cases x with
  | next x =>
    by_cases hx : x = msg
    · subst hx
      simp [mem]
    · simp [mem, hx]
  | _ => simp [mem]

@[simp] theorem update_prev :
    Function.update (mem q) (.prev msg) v = mem { q with prev := Function.update q.prev msg v } := by
  funext x
  cases x with
  | prev x =>
    by_cases hx : x = msg
    · subst hx
      simp [mem]
    · simp [mem, hx]
  | _ => simp [mem]

end Access

/-! ## The threads -/

/-- The operation that clears the links of a message. -/
inductive Caller where
  | push_back
  | push_front
  | pop

/-- Where a thread is outside the lock: between its calls, behind the test of `pop_back`, at the writes to `header.prev` and
`header.next`, or before the lock with a message to push. -/
inductive Pc (M : Type) where
  | idle
  | pop_back
  | clearPrev (msg : M) (caller : Caller)
  | clearNext (msg : M) (caller : Caller)
  | push_back (new_msg : M)
  | push_front (new_msg : M)

/-- The messages of all calls so far. -/
structure Calls (M : Type) where
  pushed : List M
  returned : List M

/-- What a thread decides: a call, or to go on. -/
inductive Choice (M : Type) where
  | push_back (new_msg : M)
  | push_front (new_msg : M)
  | pop_front
  | pop_back
  | go

abbrev QueueCode (M : Type) := Code (Loc M) (Val M) (Pc M)

/-- `q->nMsg++` and `q->nMsg--` -/
def addMsg (d : Int) (p : Pc M) : QueueCode M :=
  .read .nMsg fun (n : Int) => .write .nMsg (toInt32 (n + d)) (.ret p)

def linkBack (new_msg : M) : QueueCode M :=
  .read .bottom fun (bottom : Option M) =>
    if bottom = none then
      .write .bottom (some new_msg) <| .write .top (some new_msg) <| addMsg 1 .idle
    else
      .read .bottom fun (bottom : Option M) => match bottom with
        | none => .null
        | some b => .write (.prev b) (some new_msg) <|
          .read .bottom fun (bottom : Option M) => .write (.next new_msg) bottom <|
            .write .bottom (some new_msg) <| addMsg 1 .idle

def linkFront (new_msg : M) : QueueCode M :=
  .read .top fun (top : Option M) =>
    if top = none then
      .write .top (some new_msg) <| .write .bottom (some new_msg) <| addMsg 1 .idle
    else
      .read .top fun (top : Option M) => match top with
        | none => .null
        | some t => .write (.next t) (some new_msg) <|
          .read .top fun (top : Option M) => .write (.prev new_msg) top <|
            .write .top (some new_msg) <| addMsg 1 .idle

/-- The second half of `pop_front` under the lock: `top` moves on. -/
def unlinkTop (msg : M) : QueueCode M :=
  .read (.prev msg) fun (prev : Option M) => .write .top prev <|
    .read .top fun (top : Option M) =>
      if top = none then .write .bottom none <| addMsg (-1) (.clearPrev msg .pop)
      else addMsg (-1) (.clearPrev msg .pop)

def takeFront : QueueCode M :=
  .read .top fun (top : Option M) =>
    if top = none then .ret .idle
    else
      .read .top fun (top : Option M) => match top with
        | none => .null
        | some msg => .read (.prev msg) fun (prev : Option M) =>
          if prev = none then unlinkTop msg
          else
            .read (.prev msg) fun (prev : Option M) => match prev with
              | none => .null
              | some p => .write (.next p) none (unlinkTop msg)

/-- The second half of `pop_back` under the lock: `bottom` moves on. -/
def unlinkBottom (msg : M) : QueueCode M :=
  .read (.next msg) fun (next : Option M) => .write .bottom next <|
    .read .bottom fun (bottom : Option M) =>
      if bottom = none then .write .top none <| addMsg (-1) (.clearPrev msg .pop)
      else addMsg (-1) (.clearPrev msg .pop)

def takeBack : QueueCode M :=
  .read .bottom fun (bottom : Option M) => match bottom with
    | none => .null
    | some msg => .read (.next msg) fun (next : Option M) =>
      if next = none then unlinkBottom msg
      else
        .read (.next msg) fun (next : Option M) => match next with
          | none => .null
          | some n => .write (.prev n) none (unlinkBottom msg)

section Program
variable [DecidableEq M]

/-- The operations of the queue. -/
def program : Program (Choice M) (Loc M) (Val M) (Pc M) (Calls M) where
  outer
    | .push_back m, .idle, g => some (.skip (.clearPrev m .push_back), { g with pushed := m :: g.pushed })
    | .push_front m, .idle, g => some (.skip (.clearPrev m .push_front), { g with pushed := m :: g.pushed })
    | .pop_back, .idle, g =>
      some (.read .bottom fun (bottom : Option M) => if bottom = none then .idle else .pop_back, g)
    | .go, .clearPrev m caller, g => some (.write (.prev m) none (.clearNext m caller), g)
    | .go, .clearNext m .push_back, g => some (.write (.next m) none (.push_back m), g)
    | .go, .clearNext m .push_front, g => some (.write (.next m) none (.push_front m), g)
    | .go, .clearNext m .pop, g => some (.write (.next m) none .idle, { g with returned := m :: g.returned })
    | _, _, _ => none
  enter
    | .pop_front, .idle => some takeFront
    | .go, .push_back m => some (linkBack m)
    | .go, .push_front m => some (linkFront m)
    | .go, .pop_back => some takeBack
    | _, _ => none

/-- The tasks of the program. -/
inductive Outer (g : Calls M) : Choice M → Pc M → Task (Loc M) (Val M) (Pc M) → Calls M → Prop
  | push_back (m : M) : Outer g (.push_back m) .idle (.skip (.clearPrev m .push_back)) { g with pushed := m :: g.pushed }
  | push_front (m : M) : Outer g (.push_front m) .idle (.skip (.clearPrev m .push_front)) { g with pushed := m :: g.pushed }
  | test : Outer g .pop_back .idle (.read .bottom fun (bottom : Option M) => if bottom = none then .idle else .pop_back) g
  | clearPrev (m : M) (caller : Caller) : Outer g .go (.clearPrev m caller) (.write (.prev m) none (.clearNext m caller)) g
  | push_back_next (m : M) : Outer g .go (.clearNext m .push_back) (.write (.next m) none (.push_back m)) g
  | push_front_next (m : M) : Outer g .go (.clearNext m .push_front) (.write (.next m) none (.push_front m)) g
  | leave (m : M) : Outer g .go (.clearNext m .pop) (.write (.next m) none .idle) { g with returned := m :: g.returned }

/-- The sections of the program. -/
inductive Enter : Choice M → Pc M → QueueCode M → Prop
  | takeFront : Enter .pop_front .idle takeFront
  | linkBack (m : M) : Enter .go (.push_back m) (linkBack m)
  | linkFront (m : M) : Enter .go (.push_front m) (linkFront m)
  | takeBack : Enter .go .pop_back takeBack

omit [DecidableEq M] in
theorem outer_cases {a : Choice M} {p : Pc M} {g g' : Calls M} {task : Task (Loc M) (Val M) (Pc M)}
    (h : program.outer a p g = some (task, g')) : Outer g a p task g' := by
  unfold program at h
  dsimp only at h
  split at h
  · cases h
    exact .push_back _
  · cases h
    exact .push_front _
  · cases h
    exact .test
  · cases h
    exact .clearPrev _ _
  · cases h
    exact .push_back_next _
  · cases h
    exact .push_front_next _
  · cases h
    exact .leave _
  · cases h

omit [DecidableEq M] in
theorem enter_cases {a : Choice M} {p : Pc M} {K : QueueCode M} (h : program.enter a p = some K) : Enter a p K := by
  unfold program at h
  dsimp only at h
  split at h
  · exact Option.some.inj h ▸ .takeFront
  · exact Option.some.inj h ▸ .linkBack _
  · exact Option.some.inj h ▸ .linkFront _
  · exact Option.some.inj h ▸ .takeBack
  · cases h

/-- A message is pushed only when all its earlier pushes were returned. -/
def Fresh : Choice M → Calls M → Prop
  | .push_back m, g => g.pushed.count m = g.returned.count m
  | .push_front m, g => g.pushed.count m = g.returned.count m
  | _, _ => True

def start (next prev : M → Option M) : Sys T (Loc M) (Val M) (Pc M) (Calls M) :=
  ⟨mem (queue_init next prev), fun _ => .idle, ⟨[], []⟩, false⟩

/-! ## The sections -/

section Runs
variable (q : Queue M) (m : M)

theorem run_addMsg (d : Int) (p : Pc M) :
    (addMsg d p).run (mem q) = some (p, mem { q with nMsg := toInt32 (q.nMsg + d) }) := by
  simp [addMsg, Code.run]

theorem run_linkBack : (linkBack m).run (mem q) = some (.idle, mem (q.linkBack m)) := by
  cases hb : q.bottom <;> simp [linkBack, Code.run, run_addMsg, Queue.linkBack, hb]

theorem run_linkFront : (linkFront m).run (mem q) = some (.idle, mem (q.linkFront m)) := by
  cases ht : q.top <;> simp [linkFront, Code.run, run_addMsg, Queue.linkFront, ht]

/-- `pop_front` returns a null pointer, or clears the links of the message that it got. -/
theorem run_takeFront : takeFront.run (mem q) =
    some (match q.takeFront.2 with | none => .idle | some m => .clearPrev m .pop, mem q.takeFront.1) := by
  cases ht : q.top with
  | none => simp [takeFront, Code.run, Queue.takeFront, ht]
  | some m =>
    cases hp : q.prev m with
    | none => simp [takeFront, unlinkTop, Code.run, run_addMsg, Queue.takeFront, ht, hp, sub_eq_add_neg]
    | some p => simp [takeFront, unlinkTop, Code.run, run_addMsg, Queue.takeFront, ht, hp, sub_eq_add_neg]

theorem run_takeBack : takeBack.run (mem q) = q.takeBack.map fun r => (.clearPrev r.2 .pop, mem r.1) := by
  cases hb : q.bottom with
  | none => simp [takeBack, Code.run, Queue.takeBack, hb]
  | some m =>
    cases hn : q.next m with
    | none => simp [takeBack, unlinkBottom, Code.run, run_addMsg, Queue.takeBack, hb, hn, sub_eq_add_neg]
    | some n => simp [takeBack, unlinkBottom, Code.run, run_addMsg, Queue.takeBack, hb, hn, sub_eq_add_neg]

end Runs

/-! ### `bottom` is written once -/

omit [DecidableEq M] in
theorem late_addMsg (d : Int) (p : Pc M) : (addMsg d p).Late .bottom := by
  simp [addMsg, Code.Late]

theorem once_addMsg (d : Int) (p : Pc M) : (addMsg d p).Once .bottom := (late_addMsg d p).once

theorem once_linkBack (m : M) : (linkBack m).Once .bottom := by
  intro (bottom : Option M)
  dsimp only
  split_ifs
  · simp [Code.Once, Code.Late, late_addMsg]
  · rintro (- | b)
    · trivial
    · simp [Code.Once, late_addMsg]

theorem once_linkFront (m : M) : (linkFront m).Once .bottom := by
  intro (top : Option M)
  dsimp only
  split_ifs
  · simp [Code.Once, late_addMsg]
  · rintro (- | t)
    · trivial
    · simp [Code.Once, once_addMsg]

theorem once_unlinkTop (msg : M) : (unlinkTop msg).Once .bottom := by
  intro prev
  simp only [Code.Once, reduceCtorEq, if_false]
  intro (top : Option M)
  split_ifs
  · simp [Code.Once, late_addMsg]
  · exact once_addMsg _ _

theorem once_takeFront : (takeFront : QueueCode M).Once .bottom := by
  intro (top : Option M)
  dsimp only
  split_ifs
  · trivial
  · rintro (- | msg)
    · trivial
    · intro (prev : Option M)
      dsimp only
      split_ifs
      · exact once_unlinkTop msg
      · rintro (- | p)
        · trivial
        · simp [Code.Once, once_unlinkTop]

theorem once_unlinkBottom (msg : M) : (unlinkBottom msg).Once .bottom := by
  intro next
  simp only [Code.Once, if_true]
  intro (bottom : Option M)
  dsimp only
  split_ifs
  · simp [Code.Late, late_addMsg]
  · exact late_addMsg _ _

theorem once_takeBack : (takeBack : QueueCode M).Once .bottom := by
  rintro (- | msg)
  · trivial
  · intro (next : Option M)
    dsimp only
    split_ifs
    · exact once_unlinkBottom msg
    · rintro (- | n)
      · trivial
      · simp [Code.Once, once_unlinkBottom]

theorem program_once {a : Choice M} {p : Pc M} {K : QueueCode M} (h : program.enter a p = some K) : K.Once .bottom := by
  cases enter_cases h with
  | takeFront => exact once_takeFront
  | linkBack m => exact once_linkBack m
  | linkFront m => exact once_linkFront m
  | takeBack => exact once_takeBack

/-! ### The links that a section leaves alone -/

section Avoids
variable {q : Queue M} {l : List M} {s : Set M} {m : M}

/-- The links of these messages. -/
def linksOf (s : Set M) : Set (Loc M) := {x | ∃ m ∈ s, x = .next m ∨ x = .prev m}

omit [DecidableEq M] in
@[simp] theorem mem_linksOf {x : Loc M} : x ∈ linksOf s ↔ ∃ m ∈ s, x = .next m ∨ x = .prev m := Iff.rfl

omit [DecidableEq M] in
theorem linksOf_mono {s' : Set M} (h : s ⊆ s') : linksOf s ⊆ linksOf s' := fun _ ⟨m, hm, hx⟩ => ⟨m, h hm, hx⟩

theorem avoids_addMsg (d : Int) (p : Pc M) (m : Mem M) : (addMsg d p).Avoids (linksOf s) m := by
  simp [addMsg, Code.Avoids]

theorem avoids_linkBack (hq : q.Holds l) (hl : ∀ m ∈ l, m ∉ s) (hm : m ∉ s) :
    (linkBack m).Avoids (linksOf s) (mem q) := by
  cases hb : q.bottom with
  | none => simp [linkBack, Code.Avoids, hb, avoids_addMsg]
  | some b =>
    have hbs : b ∉ s := hl b (List.mem_of_getLast? (hq.bottom.symm.trans hb))
    simp [linkBack, Code.Avoids, hb, avoids_addMsg, hbs, hm]

theorem avoids_linkFront (hq : q.Holds l) (hl : ∀ m ∈ l, m ∉ s) (hm : m ∉ s) :
    (linkFront m).Avoids (linksOf s) (mem q) := by
  cases ht : q.top with
  | none => simp [linkFront, Code.Avoids, ht, avoids_addMsg]
  | some t =>
    have hts : t ∉ s := hl t (List.mem_of_head? (hq.top.symm.trans ht))
    simp [linkFront, Code.Avoids, ht, avoids_addMsg, hts, hm]

theorem avoids_takeFront (hq : q.Holds l) (hl : ∀ m ∈ l, m ∉ s) : takeFront.Avoids (linksOf s) (mem q) := by
  cases l with
  | nil => simp [takeFront, Code.Avoids, show q.top = none from hq.top]
  | cons m l =>
    have hm : m ∉ s := hl m List.mem_cons_self
    have hprev : q.prev m = l.head? := by rw [hq.chain.2.1, Option.or_none]
    have ht : q.top = some m := hq.top
    cases hp : l.head? with
    | none => simp [takeFront, unlinkTop, Code.Avoids, ht, hprev, hp, hm, avoids_addMsg]
    | some p =>
      have hps : p ∉ s := hl p (List.mem_cons_of_mem m (List.mem_of_head? hp))
      simp [takeFront, unlinkTop, Code.Avoids, ht, hprev, hp, hm, hps, avoids_addMsg]

theorem avoids_takeBack (hq : q.Holds l) (hl : ∀ m ∈ l, m ∉ s) : takeBack.Avoids (linksOf s) (mem q) := by
  rcases List.eq_nil_or_concat l with rfl | ⟨l, m, rfl⟩
  · simp [takeBack, Code.Avoids, show q.bottom = none from hq.bottom]
  · rw [List.concat_eq_append] at hq hl
    have hm : m ∉ s := hl m (List.mem_append_right l (List.mem_singleton_self m))
    have hnext : q.next m = l.getLast? := by
      rw [((chain_append.mp hq.chain).2).1, Option.or_none]
    have hb : q.bottom = some m := by rw [hq.bottom, List.getLast?_concat]
    cases hn : l.getLast? with
    | none => simp [takeBack, unlinkBottom, Code.Avoids, hb, hnext, hn, hm, avoids_addMsg]
    | some n =>
      have hns : n ∉ s := hl n (List.mem_append_left [m] (List.mem_of_getLast? hn))
      simp [takeBack, unlinkBottom, Code.Avoids, hb, hnext, hn, hm, hns, avoids_addMsg]

end Avoids
end Program

/-! ## Clearing the links -/

def Caller.coarse (m : M) : Caller → Threads.Pc M
  | .push_back => .push_back m
  | .push_front => .push_front m
  | .pop => .popped m

/-- Where the thread is if clearing the links is one step. -/
def Pc.coarse : Pc M → Threads.Pc M
  | .idle => .idle
  | .pop_back => .pop_back
  | .clearPrev m caller => caller.coarse m
  | .clearNext m caller => caller.coarse m
  | .push_back m => .push_back m
  | .push_front m => .push_front m

/-- The message whose links the thread is clearing. -/
def Pc.clearing : Pc M → Option M
  | .clearPrev m _ => some m
  | .clearNext m _ => some m
  | _ => none

def Clearing (pc : T → Pc M) : Set M := {m | ∃ t, (pc t).clearing = some m}

theorem msg_of_clearing {p : Pc M} {m : M} (h : p.clearing = some m) : p.coarse.msg = some m := by
  cases p with
  | clearPrev _ caller =>
    obtain rfl := Option.some.inj h
    cases caller <;> rfl
  | clearNext _ caller =>
    obtain rfl := Option.some.inj h
    cases caller <;> rfl
  | _ => cases h

/-- The links agree but for the messages whose links are being cleared: a pushed message is cleared in `c` with the call, a
popped one at the return. -/
structure Refines (s : Sys T (Loc M) (Val M) (Pc M) (Calls M)) (c : Threads.Sys T M) : Prop where
  pc : ∀ t, c.pc t = (s.pc t).coarse
  calls : s.calls = ⟨c.pushed, c.returned⟩
  crashed : s.crashed = c.crashed
  top : s.mem .top = c.q.top
  bottom : s.mem .bottom = c.q.bottom
  nMsg : s.mem .nMsg = c.q.nMsg
  links : ∀ m, m ∉ Clearing s.pc → SameLinks c.q (queue s.mem) m
  cleared : ∀ t m caller, s.pc t = .clearNext m caller → s.mem (.prev m) = none

section Refinement
variable [DecidableEq T] [DecidableEq M] {s s' : Sys T (Loc M) (Val M) (Pc M) (Calls M)} {c : Threads.Sys T M}
  {l : List M} {place : M → Threads.Place T} {t : T} {m : M}

omit [DecidableEq M] in
theorem notMem_clearing {pc : T → Pc M} {p : Pc M} (h : m ∉ Clearing (Function.update pc t p)) :
    p.clearing ≠ some m ∧ ((pc t).clearing ≠ some m → m ∉ Clearing pc) := by
  refine ⟨fun hp => h ⟨t, by rw [Function.update_self, hp]⟩, fun ht => ?_⟩
  rintro ⟨u, hu⟩
  have hut : u ≠ t := by
    rintro rfl
    exact ht hu
  exact h ⟨u, by rw [Function.update_of_ne hut, hu]⟩

omit [DecidableEq M] in
theorem pc_update (h : ∀ u, c.pc u = (s.pc u).coarse) {p : Pc M} (u : T) :
    Function.update c.pc t p.coarse u = (Function.update s.pc t p u).coarse := by
  by_cases hut : u = t
  · subst hut
    rw [Function.update_self, Function.update_self]
  · rw [Function.update_of_ne hut, Function.update_of_ne hut, h u]

omit [DecidableEq M] in
theorem pc_stay (h : ∀ u, c.pc u = (s.pc u).coarse) {p : Pc M} (hp : (s.pc t).coarse = p.coarse) (u : T) :
    c.pc u = (Function.update s.pc t p u).coarse := by
  rw [← pc_update h, ← hp, ← h t, Function.update_eq_self]

/-- What a task or a section of `s` does in `c`: nothing, or one step. The queue holds `l'` then. -/
def Answers (s' : Sys T (Loc M) (Val M) (Pc M) (Calls M)) (c : Threads.Sys T M) (acts : List (Threads.Act T M))
    (l' : List M) : Prop :=
  ∃ c', Threads.run c acts = some c' ∧ Refines s' c' ∧ ∃ place', Threads.Inv c' l' place'

theorem threads_one {act : Threads.Act T M} {c' : Threads.Sys T M} (h : Threads.step c act = some c') :
    Threads.run c [act] = some c' := by
  rw [Threads.run, h]
  rfl

omit [DecidableEq M] in
theorem Refines.cleared_update (h : Refines s c) {p : Pc M} {n : Mem M}
    (hkeep : ∀ x, s.mem (.prev x) = none → n (.prev x) = none)
    (hp : ∀ x caller, p = .clearNext x caller → n (.prev x) = none)
    (u : T) (x : M) (caller : Caller) (hu : Function.update s.pc t p u = .clearNext x caller) : n (.prev x) = none := by
  by_cases hut : u = t
  · subst hut
    rw [Function.update_self] at hu
    exact hp x caller hu
  · rw [Function.update_of_ne hut] at hu
    exact hkeep x (h.cleared u x caller hu)

theorem Refines.push (h : Refines s c) (hi : Threads.Inv c l place) (hpc : s.pc t = .idle)
    (hm : s.calls.pushed.count m = s.calls.returned.count m) {caller : Caller} (hcaller : (caller.coarse m).msg = some m)
    {act : Threads.Act T M}
    (hstep : Threads.step c act =
      some { c with q := c.q.clear m, pc := Function.update c.pc t (caller.coarse m), pushed := m :: c.pushed }) :
    Answers (s.doTask t (.skip (.clearPrev m caller)) { s.calls with pushed := m :: s.calls.pushed }) c [act] l := by
  have hidle : (c.pc t).msg = none := by
    rw [h.pc, hpc]
    rfl
  rw [h.calls] at hm ⊢
  refine ⟨_, threads_one hstep, ⟨pc_update (p := .clearPrev m caller) h.pc, rfl, h.crashed, h.top, h.bottom, h.nMsg, ?_, ?_⟩,
    _, hi.push hidle hm hcaller⟩
  · intro x hx
    obtain ⟨hxm, hxc⟩ := notMem_clearing hx
    have hne : x ≠ m := fun he => hxm (he ▸ rfl)
    have hsame := h.links x (hxc (by simp [hpc, Pc.clearing]))
    exact ⟨hsame.1.trans (sameLinks_clear hne).1.symm, hsame.2.trans (sameLinks_clear hne).2.symm⟩
  · exact h.cleared_update (fun _ hx => hx) nofun

theorem update_prev_keep {n : Mem M} {x : M} (hx : n (.prev x) = none) :
    Function.update n (.prev m) none (.prev x) = none := by
  by_cases hxm : x = m
  · subst hxm
    simp
  · simp [hxm, hx]

theorem Refines.clearPrev (h : Refines s c) (hi : Threads.Inv c l place) {caller : Caller}
    (hpc : s.pc t = .clearPrev m caller) :
    Answers (s.doTask t (.write (.prev m) none (.clearNext m caller)) s.calls) c [] l := by
  refine ⟨c, rfl, ⟨pc_stay (p := .clearNext m caller) h.pc (by rw [hpc]; rfl), h.calls, h.crashed, h.top, h.bottom,
      h.nMsg, ?_, ?_⟩,
    place, hi⟩
  · intro x hx
    obtain ⟨hxm, hxc⟩ := notMem_clearing hx
    have hne : x ≠ m := fun he => hxm (he ▸ rfl)
    have hsame := h.links x (hxc (by rw [hpc]; exact hxm))
    refine ⟨hsame.1, ?_⟩
    simpa [queue, Sys.doTask, Task.run, hne] using hsame.2
  · refine h.cleared_update (fun x hx => update_prev_keep hx) fun x caller' hx => ?_
    cases hx
    exact Function.update_self _ _ _

theorem Refines.links_clearNext (h : Refines s c) {caller : Caller} (hpc : s.pc t = .clearNext m caller)
    {p : Pc M} {q : Queue M}
    (hm : Cleared q m) (hother : ∀ x, x ≠ m → SameLinks c.q q x) (x : M) (hx : x ∉ Clearing (Function.update s.pc t p)) :
    SameLinks q (queue (Function.update s.mem (.next m) none)) x := by
  by_cases hxm : x = m
  · subst hxm
    have hprev := h.cleared t x caller hpc
    refine ⟨?_, ?_⟩
    · simp [queue, hm.1]
    · simp [queue, hm.2, hprev]
  · have hsame := h.links x ((notMem_clearing hx).2 (by simpa [hpc, Pc.clearing] using Ne.symm hxm))
    have hq := hother x hxm
    refine ⟨?_, hsame.2.trans hq.2.symm⟩
    simpa [queue, hxm] using hsame.1.trans hq.1.symm

theorem Refines.clearNext (h : Refines s c) (hi : Threads.Inv c l place) {caller : Caller}
    (hpc : s.pc t = .clearNext m caller)
    {p : Pc M} (hp : caller.coarse m = p.coarse) (hpush : caller.coarse m = .push_back m ∨ caller.coarse m = .push_front m)
    (hnot : ∀ x caller', p ≠ .clearNext x caller') :
    Answers (s.doTask t (.write (.next m) none p) s.calls) c [] l := by
  have hcoarse : c.pc t = caller.coarse m := by
    rw [h.pc, hpc]
    rfl
  refine ⟨c, rfl, ⟨pc_stay (p := p) h.pc (by rw [← hp, hpc]; rfl), h.calls, h.crashed, h.top, h.bottom, h.nMsg, ?_, ?_⟩,
    place, hi⟩
  · exact h.links_clearNext hpc (hi.ready t m (hcoarse ▸ hpush)) fun _ _ => ⟨rfl, rfl⟩
  · exact h.cleared_update (fun _ hx => hx) fun x caller' hx => absurd hx (hnot x caller')

theorem Refines.leave (h : Refines s c) (hi : Threads.Inv c l place) (hpc : s.pc t = .clearNext m .pop) :
    Answers (s.doTask t (.write (.next m) none .idle) { s.calls with returned := m :: s.calls.returned }) c [.leave t] l := by
  have hcoarse : c.pc t = .popped m := by
    rw [h.pc, hpc]
    rfl
  have hstep : Threads.step c (.leave t) =
      some { c with q := c.q.clear m, pc := Function.update c.pc t .idle, returned := m :: c.returned } := by
    simp [Threads.step, hi.alive, hcoarse]
  rw [h.calls]
  refine ⟨_, threads_one hstep, ⟨pc_update (p := .idle) h.pc, rfl, h.crashed, h.top, h.bottom, h.nMsg, ?_, ?_⟩,
    _, hi.leave hcoarse⟩
  · exact h.links_clearNext hpc (cleared_clear c.q m) fun _ hx => sameLinks_clear hx
  · exact h.cleared_update (fun _ hx => hx) nofun

theorem Refines.test (h : Refines s c) (hi : Threads.Inv c l place) (hpc : s.pc t = .idle) :
    Answers (s.doTask t (.read .bottom fun (bottom : Option M) => if bottom = none then .idle else .pop_back) s.calls) c
      [.test t] l := by
  have hcoarse : c.pc t = .idle := by
    rw [h.pc, hpc]
    rfl
  have hlinks : ∀ p : Pc M, ∀ x, x ∉ Clearing (Function.update s.pc t p) → SameLinks c.q (queue s.mem) x := fun p x hx =>
    h.links x ((notMem_clearing hx).2 (by simp [hpc, Pc.clearing]))
  have hcleared := fun p : Pc M => h.cleared_update (t := t) (p := p) (n := s.mem) fun _ hx => hx
  unfold Sys.doTask Task.run
  dsimp only
  rw [h.bottom]
  by_cases hb : c.q.bottom = none
  · have hstep : Threads.step c (.test t) = some c := by
      simp [Threads.step, hi.alive, hcoarse, hb]
    rw [if_pos hb]
    exact ⟨c, threads_one hstep, ⟨pc_stay (p := .idle) h.pc (by rw [hpc]), h.calls, h.crashed, h.top, h.bottom,
      h.nMsg, hlinks _,
      hcleared _ nofun⟩, place, hi⟩
  · have hstep : Threads.step c (.test t) = some { c with pc := Function.update c.pc t .pop_back } := by
      simp [Threads.step, hi.alive, hcoarse, hb]
    rw [if_neg hb]
    exact ⟨_, threads_one hstep, ⟨pc_update (p := .pop_back) h.pc, h.calls, h.crashed, h.top, h.bottom, h.nMsg, hlinks _,
      hcleared _ nofun⟩, place, hi.stay hcoarse⟩

theorem Refines.task (h : Refines s c) (hi : Threads.Inv c l place) {a : Choice M} (hfresh : Fresh a s.calls)
    {task : Task (Loc M) (Val M) (Pc M)} {g : Calls M} (htask : program.outer a (s.pc t) s.calls = some (task, g)) :
    ∃ acts, Answers (s.doTask t task g) c acts l := by
  have hcoarse := h.pc t
  have hcount : ∀ m, s.calls.pushed.count m = s.calls.returned.count m → c.pushed.count m = c.returned.count m := by
    rw [h.calls]
    exact fun _ hm => hm
  generalize hpc : s.pc t = p at htask hcoarse
  cases outer_cases htask with
  | push_back m =>
    refine ⟨[.push_back t m], h.push hi hpc hfresh rfl ?_⟩
    simp [Threads.step, hi.alive, hcoarse, Pc.coarse, Caller.coarse, hcount m hfresh]
  | push_front m =>
    refine ⟨[.push_front t m], h.push hi hpc hfresh rfl ?_⟩
    simp [Threads.step, hi.alive, hcoarse, Pc.coarse, Caller.coarse, hcount m hfresh]
  | test => exact ⟨_, h.test hi hpc⟩
  | clearPrev m caller => exact ⟨[], h.clearPrev hi hpc⟩
  | push_back_next m => exact ⟨[], h.clearNext hi hpc rfl (Or.inl rfl) nofun⟩
  | push_front_next m => exact ⟨[], h.clearNext hi hpc rfl (Or.inr rfl) nofun⟩
  | leave m => exact ⟨_, h.leave hi hpc⟩

/-! ## The sections take place on the same links -/

/-- The messages that are not in the system, and those that other threads have. -/
def others (s : Sys T (Loc M) (Val M) (Pc M) (Calls M)) (t : T) : Set M :=
  {m | s.calls.pushed.count m = s.calls.returned.count m ∨ ∃ u ≠ t, (s.pc u).coarse.msg = some m}

omit [DecidableEq T] in
theorem clearing_others (ht : (s.pc t).clearing = none) (hm : m ∈ Clearing s.pc) : m ∈ others s t := by
  obtain ⟨u, hu⟩ := hm
  have hut : u ≠ t := by
    rintro rfl
    exact absurd (ht.symm.trans hu) (Option.some_ne_none m).symm
  exact Or.inr ⟨u, hut, msg_of_clearing hu⟩

omit [DecidableEq T] in
theorem Refines.notMem_others (h : Refines s c) (hi : Threads.Inv c l place)
    (hplace : place m = .queued ∨ place m = .held t) : m ∉ others s t := by
  have hcount := hi.count m
  rintro (hfree | ⟨u, hut, hu⟩)
  · rw [h.calls] at hfree
    change c.pushed.count m = c.returned.count m at hfree
    rcases hplace with hplace | hplace
    · rw [hplace, Threads.Place.out] at hcount
      omega
    · rw [hplace, Threads.Place.out] at hcount
      omega
  · rw [← h.pc, hi.held] at hu
    rw [hu] at hplace
    rcases hplace with hplace | hplace
    · cases hplace
    · cases hplace
      exact hut rfl

omit [DecidableEq T] in
/-- Outside of the links of the others both memories agree. -/
theorem Refines.mem_eq (h : Refines s c) (ht : (s.pc t).clearing = none) (x : Loc M) (hx : x ∉ linksOf (others s t)) :
    s.mem x = mem c.q x := by
  have hclear : ∀ m, x = .next m ∨ x = .prev m → SameLinks c.q (queue s.mem) m := fun m hxm =>
    h.links m fun hm => hx ⟨m, clearing_others ht hm, hxm⟩
  cases x with
  | top => exact h.top
  | bottom => exact h.bottom
  | nMsg => exact h.nMsg
  | next m => exact (hclear m (Or.inl rfl)).1
  | prev m => exact (hclear m (Or.inr rfl)).2

omit [DecidableEq T] in
theorem Refines.avoids (h : Refines s c) (hi : Threads.Inv c l place) {a : Choice M} {K : QueueCode M}
    (henter : program.enter a (s.pc t) = some K) : K.Avoids (linksOf (others s t)) (mem c.q) := by
  have hl : ∀ m ∈ l, m ∉ others s t := fun m hm => h.notMem_others hi (Or.inl ((hi.queued m).mp hm))
  have hown : ∀ m, (s.pc t).coarse.msg = some m → m ∉ others s t := fun m hm =>
    h.notMem_others hi (Or.inr ((hi.held t m).mp (by rw [h.pc, hm])))
  generalize s.pc t = p at henter hown
  cases enter_cases henter with
  | takeFront => exact avoids_takeFront hi.holds hl
  | linkBack m => exact avoids_linkBack hi.holds hl (hown m rfl)
  | linkFront m => exact avoids_linkFront hi.holds hl (hown m rfl)
  | takeBack => exact avoids_takeBack hi.holds hl

omit [DecidableEq M] in
theorem clearing_of_enter {a : Choice M} {p : Pc M} {K : QueueCode M} (h : program.enter a p = some K) :
    p.clearing = none := by
  cases enter_cases h <;> rfl

open scoped Classical in
omit [DecidableEq T] in
theorem Refines.run (h : Refines s c) (hi : Threads.Inv c l place) {a : Choice M} {K : QueueCode M}
    (henter : program.enter a (s.pc t) = some K) : K.Avoids (linksOf (others s t)) s.mem ∧
      K.run s.mem = (K.run (mem c.q)).map fun r => (r.1, (linksOf (others s t)).piecewise s.mem r.2) := by
  have hmem : (linksOf (others s t)).piecewise s.mem (mem c.q) = s.mem := by
    funext x
    by_cases hx : x ∈ linksOf (others s t)
    · exact Set.piecewise_eq_of_mem _ _ _ hx
    · exact (Set.piecewise_eq_of_notMem _ _ _ hx).trans (h.mem_eq (clearing_of_enter henter) x hx).symm
  have hpiece := (h.avoids hi henter).piecewise s.mem
  rwa [hmem] at hpiece

open scoped Classical in
/-- The memories after a section that ends. -/
theorem Refines.took (h : Refines s c) (hi : Threads.Inv c l place) {a : Choice M} {K : QueueCode M}
    (henter : program.enter a (s.pc t) = some K) {p : Pc M} {q : Queue M} (hrun : K.run (mem c.q) = some (p, mem q))
    (hp : ∀ x caller, p ≠ .clearNext x caller) :
    Refines { s with mem := (linksOf (others s t)).piecewise s.mem (mem q), pc := Function.update s.pc t p }
      { c with q := q, pc := Function.update c.pc t p.coarse } := by
  have ht := clearing_of_enter henter
  have hframe := (h.avoids hi henter).run_frame hrun
  refine ⟨pc_update h.pc, h.calls, h.crashed, by simp, by simp, by simp, fun m hm => ?_, fun u m caller hu => ?_⟩
  · have hsame := h.links m ((notMem_clearing hm).2 (by simp [ht]))
    have hword : ∀ x, x = .next m ∨ x = .prev m → s.mem x = mem c.q x →
        (linksOf (others s t)).piecewise s.mem (mem q) x = mem q x := by
      intro x hx hxs
      by_cases hmem : x ∈ linksOf (others s t)
      · rw [Set.piecewise_eq_of_mem _ _ _ hmem, hxs, ← hframe, Set.piecewise_eq_of_mem _ _ _ hmem]
      · rw [Set.piecewise_eq_of_notMem _ _ _ hmem]
    exact ⟨hword (.next m) (Or.inl rfl) hsame.1, hword (.prev m) (Or.inr rfl) hsame.2⟩
  · by_cases hut : u = t
    · subst hut
      simp only [Function.update_self] at hu
      exact absurd hu (hp m caller)
    · simp only [Function.update_of_ne hut] at hu
      have hm : m ∈ others s t := Or.inr ⟨u, hut, msg_of_clearing (by rw [hu]; rfl)⟩
      have hx : Loc.prev m ∈ linksOf (others s t) := ⟨m, hm, Or.inr rfl⟩
      exact (Set.piecewise_eq_of_mem _ _ _ hx).trans (h.cleared u m caller hu)

/-- What a section does to the queue: where the thread is and what the queue holds, before and after it. -/
inductive Takes : Pc M → List M → Pc M → List M → Prop
  | push_back (m : M) (l : List M) : Takes (.push_back m) l .idle (l ++ [m])
  | push_front (m : M) (l : List M) : Takes (.push_front m) l .idle (m :: l)
  | pop_null : Takes .idle [] .idle []
  | pop_front (m : M) (l : List M) : Takes .idle (m :: l) (.clearPrev m .pop) l
  | pop_back (m : M) (l : List M) : Takes .pop_back (l ++ [m]) (.clearPrev m .pop) l

/-- A section that ends, when it is one step of `c`. -/
theorem Refines.section_step (h : Refines s c) (hi : Threads.Inv c l place) {a : Choice M} {K : QueueCode M}
    (henter : program.enter a (s.pc t) = some K) {p : Pc M} {q : Queue M} (hrun : K.run (mem c.q) = some (p, mem q))
    (hp : ∀ x caller, p ≠ .clearNext x caller) {act : Threads.Act T M}
    (hstep : Threads.step c act = some { c with q := q, pc := Function.update c.pc t p.coarse }) {l' : List M}
    {place' : M → Threads.Place T} (hi' : Threads.Inv { c with q := q, pc := Function.update c.pc t p.coarse } l' place') :
    Answers (s.doCode t K) c [act] l' ∧ (s.doCode t K).pc = Function.update s.pc t p := by
  have hrun' := (h.run hi henter).2
  rw [hrun, Option.map_some] at hrun'
  rw [doCode_some hrun']
  exact ⟨⟨_, threads_one hstep, h.took hi henter hrun hp, place', hi'⟩, rfl⟩

/-- **A section** of a thread ends, or it is the one of `pop_back` on an empty queue. -/
theorem Refines.code (h : Refines s c) (hi : Threads.Inv c l place) {a : Choice M} {K : QueueCode M}
    (henter : program.enter a (s.pc t) = some K) :
    (∃ act p l', (Answers (s.doCode t K) c [act] l' ∧ (s.doCode t K).pc = Function.update s.pc t p) ∧
      Takes (s.pc t) l p l') ∨
    K.run s.mem = none ∧ s.pc t = .pop_back ∧ l = [] ∧
      ∃ act c', Threads.run c [act] = some c' ∧ c'.crashed = true ∧ s.calls = ⟨c'.pushed, c'.returned⟩ := by
  have hcoarse := h.pc t
  have hcases := enter_cases henter
  generalize s.pc t = p at hcases hcoarse ⊢
  cases hcases with
  | takeFront =>
    refine Or.inl ⟨.takeFront t, ?_⟩
    cases l with
    | nil =>
      have hstay : { c with q := c.q, pc := Function.update c.pc t (Pc.idle : Pc M).coarse } = c := by
        rw [← hcoarse, Function.update_eq_self]
      refine ⟨.idle, [], h.section_step hi henter (p := .idle) (q := c.q) ?_ nofun ?_ (hstay.symm ▸ hi), .pop_null⟩
      · rw [run_takeFront, hi.holds.takeFront_nil]
      · rw [hstay]
        simp [Threads.step, hi.alive, hcoarse, Pc.coarse, hi.holds.takeFront_nil]
    | cons m l =>
      obtain ⟨q, htake, hi'⟩ := hi.takeFront rfl hcoarse
      refine ⟨.clearPrev m .pop, l, ?_, .pop_front m l⟩
      refine h.section_step hi henter (p := .clearPrev m .pop) (q := q) ?_ nofun ?_ hi'
      · rw [run_takeFront, htake]
      · simp [Threads.step, hi.alive, hcoarse, Pc.coarse, htake, Caller.coarse]
  | linkBack m =>
    refine Or.inl ⟨.link t, .idle, l ++ [m], ?_, .push_back m l⟩
    refine h.section_step hi henter (run_linkBack c.q m) nofun ?_ (hi.linkBack hcoarse)
    simp [Threads.step, hi.alive, hcoarse, Pc.coarse]
  | linkFront m =>
    refine Or.inl ⟨.link t, .idle, m :: l, ?_, .push_front m l⟩
    refine h.section_step hi henter (run_linkFront c.q m) nofun ?_ (hi.linkFront hcoarse)
    simp [Threads.step, hi.alive, hcoarse, Pc.coarse]
  | takeBack =>
    rcases List.eq_nil_or_concat l with rfl | ⟨l, m, rfl⟩
    · have htake : c.q.takeBack = none := by
        simp [Queue.takeBack, show c.q.bottom = none from hi.holds.bottom]
      have hrun := (h.run hi henter).2
      rw [run_takeBack, htake] at hrun
      refine Or.inr ⟨hrun, rfl, rfl, .takeBack t, { c with crashed := true }, threads_one ?_, rfl, h.calls⟩
      simp [Threads.step, hi.alive, hcoarse, Pc.coarse, htake]
    · rw [List.concat_eq_append] at hi ⊢
      obtain ⟨q, htake, hi'⟩ := hi.takeBack rfl hcoarse
      refine Or.inl ⟨.takeBack t, .clearPrev m .pop, l, ?_, .pop_back m l⟩
      refine h.section_step hi henter (p := .clearPrev m .pop) (q := q) ?_ nofun ?_ hi'
      · rw [run_takeBack, htake]
        rfl
      · simp [Threads.step, hi.alive, hcoarse, Pc.coarse, htake, Caller.coarse]

/-! ## Discipline -/

/-- The states that belong to a safe state of `Threads`. -/
def Good (s : Sys T (Loc M) (Val M) (Pc M) (Calls M)) : Prop :=
  ∃ c l place, Refines s c ∧ Threads.Inv c l place

omit [DecidableEq M] in
theorem others_subset {s : Sys T (Loc M) (Val M) (Pc M) (Calls M)} [DecidableEq M] {u : T}
    {task : Task (Loc M) (Val M) (Pc M)} {g : Calls M}
    (hcount : ∀ m, g.pushed.count m = g.returned.count m → m ∈ others s t)
    (hmsg : ∀ m, (task.run s.mem).1.coarse.msg = some m → m ∈ others s t) : others (s.doTask u task g) t ⊆ others s t := by
  rintro m (hm | ⟨v, hvt, hv⟩)
  · exact hcount m hm
  · by_cases hvu : v = u
    · subst hvu
      refine hmsg m ?_
      simpa [Sys.doTask] using hv
    · refine Or.inr ⟨v, hvt, ?_⟩
      simpa [Sys.doTask, hvu] using hv

theorem others_task {a : Choice M} {u : T} {task : Task (Loc M) (Val M) (Pc M)} {g : Calls M} (hfresh : Fresh a s.calls)
    (htask : program.outer a (s.pc u) s.calls = some (task, g)) (hut : u ≠ t) :
    others (s.doTask u task g) t ⊆ others s t := by
  have hheld : ∀ m, (s.pc u).coarse.msg = some m → m ∈ others s t := fun m hm => Or.inr ⟨u, hut, hm⟩
  have hpush : ∀ m, s.calls.pushed.count m = s.calls.returned.count m → ∀ x,
      (m :: s.calls.pushed).count x = s.calls.returned.count x → x ∈ others s t := by
    intro m hm x hx
    by_cases hxm : x = m
    · exact Or.inl (hxm ▸ hm)
    · rw [List.count_cons_of_ne (Ne.symm hxm)] at hx
      exact Or.inl hx
  generalize s.pc u = p at htask hheld
  cases outer_cases htask with
  | push_back m =>
    refine others_subset (hpush m hfresh) fun x hx => Or.inl ?_
    cases hx
    exact hfresh
  | push_front m =>
    refine others_subset (hpush m hfresh) fun x hx => Or.inl ?_
    cases hx
    exact hfresh
  | test =>
    refine others_subset (fun x hx => Or.inl hx) fun x hx => ?_
    unfold Task.run at hx
    dsimp only at hx
    split_ifs at hx <;> cases hx
  | clearPrev m caller => exact others_subset (fun x hx => Or.inl hx) hheld
  | push_back_next m => exact others_subset (fun x hx => Or.inl hx) hheld
  | push_front_next m => exact others_subset (fun x hx => Or.inl hx) hheld
  | leave m =>
    refine others_subset (fun x hx => ?_) nofun
    by_cases hxm : x = m
    · exact hheld x (hxm ▸ rfl)
    · change s.calls.pushed.count x = (m :: s.calls.returned).count x at hx
      rw [List.count_cons_of_ne (Ne.symm hxm)] at hx
      exact Or.inl hx

omit [DecidableEq M] in
theorem program_reads {a : Choice M} {p : Pc M} {g g' : Calls M} {x : Loc M} {k : Val M x → Pc M}
    (h : program.outer a p g = some (.read x k, g')) : x = .bottom := by
  cases outer_cases h
  rfl

omit [DecidableEq M] in
/-- The writes outside the lock clear a link of a message that the thread has. -/
theorem program_writes {a : Choice M} {p p' : Pc M} {g g' : Calls M} {x : Loc M} {v : Val M x}
    (h : program.outer a p g = some (.write x v p', g')) : ∃ m, p.coarse.msg = some m ∧ (x = .next m ∨ x = .prev m) := by
  cases outer_cases h with
  | clearPrev m caller => exact ⟨m, msg_of_clearing rfl, Or.inr rfl⟩
  | push_back_next m => exact ⟨m, rfl, Or.inl rfl⟩
  | push_front_next m => exact ⟨m, rfl, Or.inl rfl⟩
  | leave m => exact ⟨m, rfl, Or.inl rfl⟩

theorem discipline : Discipline program Fresh .bottom (Good (T := T) (M := M)) fun s t => linksOf (others s t) where
  once := program_once
  reads := program_reads
  writes hs h := by
    obtain ⟨m, hm, hx⟩ := program_writes h
    refine ⟨?_, fun t htu => ⟨m, Or.inr ⟨_, htu.symm, hm⟩, hx⟩⟩
    rcases hx with rfl | rfl
    · exact nofun
    · exact nofun
  avoids := by
    rintro s t a K ⟨c, l, place, h, hi⟩ henter
    exact (h.run hi henter).1
  alive := by
    rintro s ⟨c, l, place, h, hi⟩
    exact h.crashed.trans hi.alive
  task := by
    rintro s u a task g ⟨c, l, place, h, hi⟩ hfresh htask
    obtain ⟨acts, c', -, h', place', hi'⟩ := h.task hi hfresh htask
    exact ⟨c', l, place', h', hi'⟩
  code := by
    rintro s t a K ⟨c, l, place, h, hi⟩ henter halive
    rcases h.code hi henter with ⟨act, p, l', ⟨⟨c', -, h', place', hi'⟩, -⟩, -⟩ | ⟨hnull, -⟩
    · exact ⟨c', l', place', h', hi'⟩
    · rw [doCode_none hnull] at halive
      cases halive
  task_subset := by
    rintro s u a task g t - hfresh htask htu
    exact linksOf_mono (others_task hfresh htask htu.symm)
  code_subset := by
    rintro s t a K - -
    refine linksOf_mono fun m hm => ?_
    unfold Sys.doCode at hm
    split at hm
    · exact hm
    · refine hm.imp_right ?_
      rintro ⟨u, hut, hu⟩
      refine ⟨u, hut, ?_⟩
      simpa [hut] using hu

/-! ## Calls and returns -/

def Caller.status (m : M) : Caller → Deque.Pc M
  | .push_back => .called (.push_back m)
  | .push_front => .called (.push_front m)
  | .pop => .done (some m)

/-- How far the thread is with its call. -/
def Pc.status : Pc M → Stage (Choice M) → Deque.Pc M
  | .idle, .out => .idle
  | .idle, .called _ => .called .pop_front
  | .idle, .done => .done none
  | .pop_back, _ => .tested
  | .clearPrev m caller, _ => caller.status m
  | .clearNext m caller, _ => caller.status m
  | .push_back m, _ => .called (.push_back m)
  | .push_front m, _ => .called (.push_front m)

/-- The calls and the returns of a step: `pop_back` returns `NULL` after its test, a pop its message after the second
write, and the other calls return with `spin_unlock`. -/
def events : Label T (Choice M) (Pc M) → List (Deque.Event T M)
  | .task t (.push_back m) _ _ => [.call t (.push_back m)]
  | .task t (.push_front m) _ _ => [.call t (.push_front m)]
  | .task t .pop_back _ .idle => [.call t .pop_back, .ret t none]
  | .task t .pop_back _ _ => [.call t .pop_back]
  | .task t .go (.clearNext m .pop) _ => [.ret t (some m)]
  | .call t .pop_front _ => [.call t .pop_front]
  | .ret t .idle => [.ret t none]
  | _ => []

def history (f : Fine T (Loc M) (Val M) (Pc M) (Calls M)) (acts : List (Fine.Act T (Choice M))) :
    List (Deque.Event T M) :=
  (f.trace program acts).flatMap events

section Status
variable {d : Deque.Sys T M}

omit [DecidableEq M] in
theorem Takes.take {p p' : Pc M} {l l' : List M} (h : Takes p l p' l') (hl : d.list = l) {a : Choice M}
    (hpc : d.pc t = p.status (.called a)) : d.take t = some (d.goto t (p'.status .done) l' []) := by
  cases h with
  | push_back m => simp [Deque.Sys.take, hpc, Pc.status, hl]
  | push_front m => simp [Deque.Sys.take, hpc, Pc.status, hl]
  | pop_null => simp [Deque.Sys.take, hpc, Pc.status, hl]
  | pop_front m => simp [Deque.Sys.take, hpc, Pc.status, hl, Caller.status]
  | pop_back m => simp [Deque.Sys.take, hpc, Pc.status, hl, Caller.status]

theorem run_task (halive : d.crashed = false) {p : Pc M} (hpc : d.pc t = p.status .out) {a : Choice M} {g g' : Calls M}
    {task : Task (Loc M) (Val M) (Pc M)} (htask : program.outer a p g = some (task, g')) {n : Mem M}
    (hbottom : n .bottom = d.list.getLast?) :
    ∃ acts, Deque.run d acts =
      some (d.goto t ((task.run n).1.status .out) d.list (events (.task t a p (task.run n).1))) := by
  cases outer_cases htask with
  | push_back m => exact ⟨_, Deque.run_call halive hpc (.push_back m)⟩
  | push_front m => exact ⟨_, Deque.run_call halive hpc (.push_front m)⟩
  | test =>
    have hcall := Deque.run_call halive hpc .pop_back
    have htake : (d.goto t (.called .pop_back) d.list [.call t .pop_back]).take t =
        some (d.goto t (if d.list.isEmpty then .done none else .tested) d.list [.call t .pop_back]) := by
      simp [Deque.Sys.take, Deque.Sys.goto]
    have hrun := Deque.run_append hcall (Deque.run_take halive htake)
    simp only [Task.run, hbottom, List.getLast?_eq_none_iff]
    by_cases hl : d.list = []
    · rw [if_pos (List.isEmpty_iff.mpr hl)] at hrun
      rw [if_pos hl]
      have hret := Deque.run_ret (d := d.goto t (.done none) d.list [.call t .pop_back]) (t := t) halive
        (Function.update_self t _ _)
      rw [Deque.goto_goto] at hret
      exact ⟨_, Deque.run_append hrun hret⟩
    · rw [if_neg (mt List.isEmpty_iff.mp hl)] at hrun
      rw [if_neg hl]
      exact ⟨_, hrun⟩
  | clearPrev m caller => exact ⟨[], Deque.run_stay hpc⟩
  | push_back_next m => exact ⟨[], Deque.run_stay hpc⟩
  | push_front_next m => exact ⟨[], Deque.run_stay hpc⟩
  | leave m => exact ⟨_, Deque.run_ret halive hpc⟩

omit [DecidableEq M] in
theorem run_spin_lock (halive : d.crashed = false) {p : Pc M} (hpc : d.pc t = p.status .out) {a : Choice M} {K : QueueCode M}
    (henter : program.enter a p = some K) :
    ∃ acts, Deque.run d acts = some (d.goto t (p.status (.called a)) d.list (events (.call t a p))) := by
  cases enter_cases henter with
  | takeFront => exact ⟨_, Deque.run_call halive hpc .pop_front⟩
  | linkBack m => exact ⟨[], Deque.run_stay hpc⟩
  | linkFront m => exact ⟨[], Deque.run_stay hpc⟩
  | takeBack => exact ⟨[], Deque.run_stay hpc⟩

omit [DecidableEq M] in
theorem run_spin_unlock (halive : d.crashed = false) {p : Pc M} (hpc : d.pc t = p.status .done) :
    ∃ acts, Deque.run d acts = some (d.goto t (p.status .out) d.list (events (.ret t p))) := by
  cases p with
  | idle => exact ⟨_, Deque.run_ret halive hpc⟩
  | _ => exact ⟨[], Deque.run_stay hpc⟩

end Status

/-! ## Runs -/

/-- The state between sections, and what it is in `Threads` and as a double-ended queue. -/
structure Joined (x : Coarse T (Choice M) (Loc M) (Val M) (Pc M) (Calls M)) (c : Threads.Sys T M) (d : Deque.Sys T M)
    (place : M → Threads.Place T) : Prop where
  refines : Refines x.sys c
  inv : Threads.Inv c d.list place
  alive : d.crashed = false
  pc : ∀ t, d.pc t = (x.sys.pc t).status (x.stage t)

/-- After a step: the states belong together, or a null pointer was used in all. -/
def Joins (x : Coarse T (Choice M) (Loc M) (Val M) (Pc M) (Calls M)) (c : Threads.Sys T M) (d : Deque.Sys T M) : Prop :=
  (∃ place, Joined x c d place) ∨
    x.sys.crashed = true ∧ c.crashed = true ∧ d.crashed = true ∧ x.sys.calls = ⟨c.pushed, c.returned⟩

variable {x x' : Coarse T (Choice M) (Loc M) (Val M) (Pc M) (Calls M)} {d : Deque.Sys T M}
  {labels : List (Label T (Choice M) (Pc M))}

omit [DecidableEq M] in
theorem status_update {pc : T → Pc M} {stage : T → Stage (Choice M)} (h : ∀ u, d.pc u = (pc u).status (stage u)) (p : Pc M)
    (st : Stage (Choice M)) (u : T) :
    Function.update d.pc t (p.status st) u = (Function.update pc t p u).status (Function.update stage t st u) := by
  by_cases hut : u = t
  · subst hut
    simp
  · simp [hut, h]

theorem Joined.task (h : Joined x c d place) (hstage : x.stage t = .out) {a : Choice M} (hfresh : Fresh a x.sys.calls)
    {task : Task (Loc M) (Val M) (Pc M)} {g : Calls M} (htask : program.outer a (x.sys.pc t) x.sys.calls = some (task, g)) :
    ∃ acts acts' c' d', Threads.run c acts = some c' ∧ Deque.run d acts' = some d' ∧
      d'.history = d.history ++ events (.task t a (x.sys.pc t) (task.run x.sys.mem).1) ∧
      Joins { x with sys := x.sys.doTask t task g } c' d' := by
  obtain ⟨acts, c', hrun, href, place', hinv⟩ := h.refines.task h.inv hfresh htask
  have hpc : d.pc t = (x.sys.pc t).status .out := by rw [h.pc, hstage]
  obtain ⟨acts', hrun'⟩ := run_task h.alive hpc htask (h.refines.bottom.trans h.inv.holds.bottom)
  refine ⟨acts, acts', c', _, hrun, hrun', rfl, Or.inl ⟨place', href, hinv, h.alive, fun u => ?_⟩⟩
  have hstay : Function.update x.stage t .out = x.stage := by rw [← hstage, Function.update_eq_self]
  have hstatus := status_update (t := t) h.pc (task.run x.sys.mem).1 .out u
  rwa [hstay] at hstatus

theorem Joined.call (h : Joined x c d place) (hstage : x.stage t = .out) {a : Choice M} {K : QueueCode M}
    (henter : program.enter a (x.sys.pc t) = some K) :
    ∃ acts' d', Deque.run d acts' = some d' ∧ d'.history = d.history ++ events (.call t a (x.sys.pc t)) ∧
      Joined { x with stage := Function.update x.stage t (.called a) } c d' place := by
  have hpc : d.pc t = (x.sys.pc t).status .out := by rw [h.pc, hstage]
  obtain ⟨acts', hrun'⟩ := run_spin_lock h.alive hpc henter
  refine ⟨acts', _, hrun', rfl, h.refines, h.inv, h.alive, fun u => ?_⟩
  have hstatus := status_update (t := t) h.pc (x.sys.pc t) (.called a) u
  rwa [Function.update_eq_self] at hstatus

theorem Joined.take (h : Joined x c d place) {a : Choice M} (hstage : x.stage t = .called a) {K : QueueCode M}
    (henter : program.enter a (x.sys.pc t) = some K) :
    ∃ acts acts' c' d', Threads.run c acts = some c' ∧ Deque.run d acts' = some d' ∧ d'.history = d.history ∧
      Joins ⟨x.sys.doCode t K, Function.update x.stage t .done⟩ c' d' := by
  have hpc : d.pc t = (x.sys.pc t).status (.called a) := by rw [h.pc, hstage]
  rcases h.refines.code h.inv henter with
    ⟨act, p, l', ⟨⟨c', hrun, href, place', hinv⟩, hsys⟩, htakes⟩ | ⟨hnull, hback, hl, act, c', hrun, hcrashed, hcalls⟩
  · have hrun' := Deque.run_take h.alive (htakes.take rfl hpc)
    refine ⟨_, _, c', _, hrun, hrun', List.append_nil _, Or.inl ⟨place', href, hinv, h.alive, fun u => ?_⟩⟩
    rw [hsys]
    exact status_update h.pc p .done u
  · rw [doCode_none hnull]
    have htake : d.take t = some { d with crashed := true } := by
      simp [Deque.Sys.take, hpc, hback, Pc.status, hl]
    exact ⟨_, _, c', _, hrun, Deque.run_take h.alive htake, rfl, Or.inr ⟨rfl, hcrashed, rfl, hcalls⟩⟩

theorem Joined.ret (h : Joined x c d place) (hstage : x.stage t = .done) :
    ∃ acts' d', Deque.run d acts' = some d' ∧ d'.history = d.history ++ events (.ret t (x.sys.pc t)) ∧
      Joined { x with stage := Function.update x.stage t .out } c d' place := by
  have hpc : d.pc t = (x.sys.pc t).status .done := by rw [h.pc, hstage]
  obtain ⟨acts', hrun'⟩ := run_spin_unlock h.alive hpc
  refine ⟨acts', _, hrun', rfl, h.refines, h.inv, h.alive, fun u => ?_⟩
  have hstatus := status_update (t := t) h.pc (x.sys.pc t) .out u
  rwa [Function.update_eq_self] at hstatus

/-- **One step** between sections. -/
theorem Joined.step (h : Joined x c d place) (hstep : Coarse.Step program Fresh x labels x') :
    ∃ acts acts' c' d', Threads.run c acts = some c' ∧ Deque.run d acts' = some d' ∧
      d'.history = d.history ++ labels.flatMap events ∧ Joins x' c' d' := by
  cases hstep with
  | task hstage hfresh htask =>
    rw [List.flatMap_singleton]
    exact h.task hstage hfresh htask
  | call hstage henter =>
    obtain ⟨acts', d', hrun', hhistory, hjoined⟩ := h.call hstage henter
    rw [List.flatMap_singleton]
    exact ⟨[], acts', c, d', rfl, hrun', hhistory, Or.inl ⟨place, hjoined⟩⟩
  | take hstage henter =>
    rw [List.flatMap_nil, List.append_nil]
    exact h.take hstage henter
  | ret hstage =>
    obtain ⟨acts', d', hrun', hhistory, hjoined⟩ := h.ret hstage
    rw [List.flatMap_singleton]
    exact ⟨[], acts', c, d', rfl, hrun', hhistory, Or.inl ⟨place, hjoined⟩⟩

theorem threads_append {acts acts' : List (Threads.Act T M)} {c' c'' : Threads.Sys T M}
    (h : Threads.run c acts = some c') (h' : Threads.run c' acts' = some c'') :
    Threads.run c (acts ++ acts') = some c'' := by
  induction acts generalizing c with
  | nil =>
    obtain rfl := Option.some.inj h
    exact h'
  | cons act acts ih =>
    obtain ⟨c₁, hstep, hrun⟩ := Option.bind_eq_some_iff.mp h
    rw [List.cons_append, Threads.run, hstep, Option.bind_some]
    exact ih hrun

theorem Joined.run (h : Joined x c d place) (hsteps : Coarse.Steps program Fresh x labels x') :
    ∃ acts acts' c' d', Threads.run c acts = some c' ∧ Deque.run d acts' = some d' ∧
      d'.history = d.history ++ labels.flatMap events ∧ Joins x' c' d' := by
  induction hsteps generalizing c d place with
  | refl x => exact ⟨[], [], c, d, rfl, rfl, by simp, Or.inl ⟨place, h⟩⟩
  | head alive step steps ih =>
    obtain ⟨acts₁, acts₁', c₁, d₁, hrun₁, hrun₁', hhistory₁, ⟨place₁, hjoined⟩ | hnull⟩ := h.step step
    · obtain ⟨acts₂, acts₂', c', d', hrun₂, hrun₂', hhistory₂, hend⟩ := ih hjoined
      refine ⟨acts₁ ++ acts₂, acts₁' ++ acts₂', c', d', threads_append hrun₁ hrun₂, Deque.run_append hrun₁' hrun₂', ?_,
        hend⟩
      rw [hhistory₂, hhistory₁, List.flatMap_append, List.append_assoc]
    · cases steps with
      | refl => exact ⟨acts₁, acts₁', c₁, d₁, hrun₁, hrun₁', by rw [hhistory₁, List.append_nil], Or.inr hnull⟩
      | head alive' => exact absurd (alive'.symm.trans hnull.1) Bool.false_ne_true

/-- The thread is neither behind the lock nor at its two writes. -/
def AtRest : Phase (Loc M) (Val M) (Pc M) → Prop
  | .out p => p.clearing = none
  | .xchg _ => True
  | .spin _ => True
  | .inside _ => False

def Settled (f : Fine T (Loc M) (Val M) (Pc M) (Calls M)) : Prop := ∀ t, AtRest (f.phase t)

omit [DecidableEq T] [DecidableEq M] in
theorem clearing_of_at {p : Pc M} {stage : Stage (Choice M)} {phase : Phase (Loc M) (Val M) (Pc M)}
    (hat : phase.At program p stage) (hphase : AtRest phase) : p.clearing = none := by
  cases phase with
  | out q =>
    obtain ⟨rfl, -⟩ := hat
    exact hphase
  | xchg K =>
    obtain ⟨a, -, henter⟩ := hat
    exact clearing_of_enter henter
  | spin K =>
    obtain ⟨a, -, henter⟩ := hat
    exact clearing_of_enter henter
  | inside K => exact hphase.elim

omit [DecidableEq T] in
/-- Between the calls the links are those of `c`. -/
theorem Refines.settled (h : Refines x.sys c) {f : Fine T (Loc M) (Val M) (Pc M) (Calls M)}
    (hsim : Sim program .bottom Good (fun s t => linksOf (others s t)) f x) (hf : Settled f) : queue f.mem = c.q := by
  have hmem : f.mem = x.sys.mem := by
    rcases hsim.lock with ⟨-, hmem⟩ | ⟨t, K, hold⟩
    · exact hmem
    · have ht := hf t
      rw [hold.held.phase] at ht
      exact ht.elim
  have hclear : ∀ m, m ∉ Clearing x.sys.pc := by
    rintro m ⟨t, hm⟩
    rw [clearing_of_at (hsim.phase t) (hf t)] at hm
    cases hm
  rw [hmem]
  have hnext : (fun m => x.sys.mem (.next m)) = c.q.next := funext fun m => (h.links m (hclear m)).1
  have hprev : (fun m => x.sys.mem (.prev m)) = c.q.prev := funext fun m => (h.links m (hclear m)).2
  unfold queue
  rw [hnext, hprev, h.top, h.bottom, h.nMsg]

def fineStart (next prev : M → Option M) : Fine T (Loc M) (Val M) (Pc M) (Calls M) := (start next prev).fine

/-- In the run, a message is pushed only when all its earlier pushes were returned. -/
def Owned (f : Fine T (Loc M) (Val M) (Pc M) (Calls M)) (acts : List (Fine.Act T (Choice M))) : Prop :=
  f.Keeps program Fresh acts

omit [DecidableEq T] [DecidableEq M] in
theorem refines_start (next prev : M → Option M) : Refines (start next prev : Sys T (Loc M) (Val M) (Pc M) (Calls M))
    (Threads.start next prev) :=
  ⟨fun _ => rfl, rfl, rfl, rfl, rfl, rfl, fun _ _ => ⟨rfl, rfl⟩, nofun⟩

omit [DecidableEq T] in
theorem joined_start (next prev : M → Option M) :
    Joined (start next prev : Sys T (Loc M) (Val M) (Pc M) (Calls M)).coarse (Threads.start next prev) Deque.start
      fun _ => .free :=
  ⟨refines_start next prev, Threads.inv_start next prev, rfl, fun _ => rfl⟩

/-- The fine run, the run of `Threads` and that of the double-ended queue. -/
theorem fine_run (next prev : M → Option M) {acts : List (Fine.Act T (Choice M))}
    {f : Fine T (Loc M) (Val M) (Pc M) (Calls M)} (hrun : Fine.run program (fineStart next prev) acts = some f)
    (howned : Owned (fineStart next prev) acts) :
    ∃ (acts' : List (Threads.Act T M)) (acts'' : List (Deque.Act T M)) (c : Threads.Sys T M) (d : Deque.Sys T M),
      Threads.run (Threads.start next prev) acts' = some c ∧ Deque.run Deque.start acts'' = some d ∧
      d.history = history (fineStart next prev) acts ∧ f.calls = ⟨c.pushed, c.returned⟩ ∧
      (f.crashed = true ∧ c.crashed = true ∧ d.crashed = true ∨ f.crashed = false ∧ d.crashed = false ∧ Threads.Safe c ∧
        (Settled f → queue f.mem = c.q ∧ c.q.Holds d.list)) := by
  have hstart := joined_start (T := T) next prev
  have hgood : Good (start next prev : Sys T (Loc M) (Val M) (Pc M) (Calls M)) :=
    ⟨_, _, _, refines_start next prev, Threads.inv_start next prev⟩
  obtain ⟨x, hsteps, hafter⟩ := (sim_fine rfl hgood).run discipline howned hrun
  obtain ⟨acts', acts'', c, d, hrun', hrun'', hhistory, hjoins⟩ := hstart.run hsteps
  refine ⟨acts', acts'', c, d, hrun', hrun'', hhistory, ?_⟩
  rcases hjoins with ⟨place, h⟩ | ⟨hcrashed, hc, hd, hcalls⟩
  · rcases hafter with hsim | ⟨-, hcrashed, -⟩
    · refine ⟨hsim.calls.trans h.refines.calls, Or.inr ⟨hsim.alive, h.alive, h.inv.safe, fun hf => ?_⟩⟩
      exact ⟨h.refines.settled hsim hf, h.inv.holds⟩
    · exact absurd ((h.refines.crashed.trans h.inv.alive).symm.trans hcrashed) Bool.false_ne_true
  · rcases hafter with hsim | ⟨hf, -, hcalls'⟩
    · exact absurd ((discipline.alive hsim.inv).symm.trans hcrashed) Bool.false_ne_true
    · exact ⟨hcalls'.trans hcalls, Or.inl ⟨hf, hc, hd⟩⟩

/-- The calls, the null pointers and, between the calls, the links are those of a run of `Threads`. -/
theorem fine_refines (next prev : M → Option M) {acts : List (Fine.Act T (Choice M))}
    {f : Fine T (Loc M) (Val M) (Pc M) (Calls M)} (hrun : Fine.run program (fineStart next prev) acts = some f)
    (howned : Owned (fineStart next prev) acts) :
    ∃ (acts' : List (Threads.Act T M)) (c : Threads.Sys T M),
      Threads.run (Threads.start next prev) acts' = some c ∧ f.calls = ⟨c.pushed, c.returned⟩ ∧
      (f.crashed = false ↔ Threads.Guarded (Threads.start next prev) acts') ∧
      (f.crashed = false → Settled f → queue f.mem = c.q) := by
  obtain ⟨acts', -, c, d, hrun', -, -, hcalls, hend⟩ := fine_run next prev hrun howned
  refine ⟨acts', c, hrun', hcalls, ?_⟩
  rw [← Threads.run_safe_iff next prev hrun']
  rcases hend with ⟨hf, hc, -⟩ | ⟨hf, -, hsafe, hsettled⟩
  · rw [hf]
    exact ⟨iff_of_false nofun fun hsafe => Bool.false_ne_true (hsafe.alive.symm.trans hc), nofun⟩
  · exact ⟨iff_of_true hf hsafe, fun _ hset => (hsettled hset).1⟩

theorem locked_run (next prev : M → Option M) {acts : List (Fine.Act T (Choice M))}
    {f : Fine T (Loc M) (Val M) (Pc M) (Calls M)}
    (hrun : Fine.run program (fineStart next prev) acts = some f) : f.Locked :=
  Fine.Locked.run (Or.inl (open_fine (start next prev))) hrun

/-- **The queue is linearizable**: in any run, access by access, at most one thread is behind the lock, and the threads
see the calls and returns, with their messages and `NULL`s, of a double-ended queue whose operations take place at once. A
null pointer is followed when `pop_back` finds the queue empty after its test, and between the calls the links lead
through the queue. -/
theorem fine_linearizable (next prev : M → Option M) {acts : List (Fine.Act T (Choice M))}
    {f : Fine T (Loc M) (Val M) (Pc M) (Calls M)} (hrun : Fine.run program (fineStart next prev) acts = some f)
    (howned : Owned (fineStart next prev) acts) :
    (∀ t u K K', f.phase t = .inside K → f.phase u = .inside K' → t = u) ∧
      ∃ (acts' : List (Deque.Act T M)) (d : Deque.Sys T M), Deque.run Deque.start acts' = some d ∧
        d.history = history (fineStart next prev) acts ∧ d.crashed = f.crashed ∧
        (f.crashed = false → Settled f → (queue f.mem).Holds d.list) := by
  refine ⟨fun t u K K' ht hu => (locked_run next prev hrun).alone ht hu, ?_⟩
  obtain ⟨-, acts', c, d, -, hrun', hhistory, -, hend⟩ := fine_run next prev hrun howned
  refine ⟨acts', d, hrun', hhistory, ?_⟩
  rcases hend with ⟨hf, -, hd⟩ | ⟨hf, hd, -, hsettled⟩
  · exact ⟨hd.trans hf.symm, fun halive => absurd (halive.symm.trans hf) Bool.false_ne_true⟩
  · refine ⟨hd.trans hf.symm, fun _ hset => ?_⟩
    rw [(hsettled hset).1]
    exact (hsettled hset).2

/-- Two threads push a message each; the second waits for the lock. -/
def contend : List (Fine.Act Nat (Choice Nat)) :=
  [.outer 0 (.push_back 1), .outer 1 (.push_back 2), .outer 0 .go, .outer 1 .go, .outer 0 .go, .outer 1 .go, .enter 0 .go,
    .enter 1 .go, .access 0, .access 1]

theorem owned_contend {acts : List (Fine.Act Nat (Choice Nat))} (h : ∀ t a, .outer t a ∈ acts → ∀ g, Fresh a g) :
    Owned (fineStart (fun _ => none) fun _ => none) (contend ++ acts) := by
  refine Fine.keeps_cons rfl (fun t a ha => ?_) (Fine.keeps_cons rfl (fun t a ha => ?_) (Fine.keeps_of_forall ?_))
  · cases ha
    rfl
  · cases ha
    rfl
  · intro t a ha g
    rcases List.mem_append.mp ha with ha | ha
    · simp only [List.mem_cons, List.not_mem_nil, or_false, Fine.Act.outer.injEq, reduceCtorEq] at ha
      rcases ha with ⟨-, rfl⟩ | ⟨-, rfl⟩ | ⟨-, rfl⟩ | ⟨-, rfl⟩
      all_goals trivial
    · exact h t a ha g

def bothPush : List (Fine.Act Nat (Choice Nat)) := List.replicate 6 (.access 0) ++ List.replicate 11 (.access 1)

def thirdPops : List (Fine.Act Nat (Choice Nat)) :=
  [.outer 2 .pop_back, .enter 2 .go] ++ List.replicate 11 (.access 2) ++ [.outer 2 .go, .outer 2 .go]

/-- The third thread gets the second message. -/
theorem fine_linearizable_three : ∃ f : Fine Nat (Loc Nat) (Val Nat) (Pc Nat) (Calls Nat),
    Fine.run program (fineStart (fun _ => none) fun _ => none) (contend ++ (bothPush ++ thirdPops)) = some f ∧
      history (fineStart (fun _ => none) fun _ => none) (contend ++ (bothPush ++ thirdPops)) =
        [.call 0 (.push_back 1), .call 1 (.push_back 2), .ret 0 none, .ret 1 none, .call 2 .pop_back, .ret 2 (some 2)] ∧
      (∀ t u K K', f.phase t = .inside K → f.phase u = .inside K' → t = u) ∧
      ∃ (acts : List (Deque.Act Nat Nat)) (d : Deque.Sys Nat Nat), Deque.run Deque.start acts = some d ∧
        d.history = history (fineStart (fun _ => none) fun _ => none) (contend ++ (bothPush ++ thirdPops)) ∧
        d.crashed = f.crashed ∧ (f.crashed = false → Settled f → (queue f.mem).Holds d.list) := by
  obtain ⟨f, hf⟩ : ∃ f, Fine.run program (fineStart (fun _ => none) fun _ => none)
      (contend ++ (bothPush ++ thirdPops)) = some f := ⟨_, rfl⟩
  refine ⟨f, hf, rfl, fine_linearizable _ _ hf (owned_contend fun t a ha g => ?_)⟩
  simp only [bothPush, thirdPops, List.mem_append, List.mem_replicate, List.mem_cons, List.not_mem_nil,
    Fine.Act.outer.injEq, reduceCtorEq, and_false, false_or, or_false, or_self] at ha
  rcases ha with ⟨-, rfl⟩ | ⟨-, rfl⟩
  all_goals trivial

omit [DecidableEq T] [DecidableEq M] in
theorem task_of_events {label : Label T (Choice M) (Pc M)} (h : .call t .pop_back ∈ events label) :
    ∃ p p', label = .task t .pop_back p p' := by
  unfold events at h
  split at h
  · simp at h
  · simp at h
  · simp at h
    exact ⟨_, _, by rw [h]⟩
  · simp at h
    exact ⟨_, _, by rw [h]⟩
  · simp at h
  · simp at h
  · simp at h
  · cases h

/-- The test of `pop_back` is its call. -/
theorem outer_of_history {f : Fine T (Loc M) (Val M) (Pc M) (Calls M)} {acts : List (Fine.Act T (Choice M))}
    (h : .call t .pop_back ∈ history f acts) : .outer t .pop_back ∈ acts := by
  obtain ⟨label, hlabel, hevent⟩ := List.mem_flatMap.mp h
  obtain ⟨p, p', rfl⟩ := task_of_events hevent
  exact Fine.outer_of_trace hlabel

/-- **Without `pop_back`** no null pointer is followed, no push is returned twice, and between the calls `nMsg` is the number
of messages that the links lead through in both directions, as far as an `int` goes. -/
theorem fine_safe (next prev : M → Option M) {acts : List (Fine.Act T (Choice M))}
    {f : Fine T (Loc M) (Val M) (Pc M) (Calls M)} (hrun : Fine.run program (fineStart next prev) acts = some f)
    (howned : Owned (fineStart next prev) acts) (hno : ∀ t, .outer t .pop_back ∉ acts) :
    f.crashed = false ∧ (∀ m, f.calls.returned.count m ≤ f.calls.pushed.count m) ∧
      (Settled f → ∃ l : List M, (∀ n, l.length ≤ n → walk (queue f.mem).prev n (f.mem .top) = l ∧
        walk (queue f.mem).next n (f.mem .bottom) = l.reverse) ∧ (l.length ≤ 2147483647 → f.mem .nMsg = (l.length : Int))) := by
  obtain ⟨-, acts', c, d, -, hrun', hhistory, hcalls, ⟨-, -, hd⟩ | ⟨hf, -, hsafe, hsettled⟩⟩ :=
    fine_run next prev hrun howned
  · obtain ⟨t, ht⟩ := Deque.blamed_start.run hrun' (Or.inl hd)
    rw [hhistory] at ht
    exact absurd (outer_of_history ht) (hno t)
  · refine ⟨hf, ?_, fun hset => ?_⟩
    · rw [hcalls]
      exact hsafe.once
    · have hcounted := hsafe.counted
      rw [← (hsettled hset).1] at hcounted
      exact hcounted

/-- The two messages are in the queue. -/
theorem fine_safe_two : ∃ f : Fine Nat (Loc Nat) (Val Nat) (Pc Nat) (Calls Nat),
    Fine.run program (fineStart (fun _ => none) fun _ => none) (contend ++ bothPush) = some f ∧
      f.crashed = false ∧ (∀ m, f.calls.returned.count m ≤ f.calls.pushed.count m) ∧
      (Settled f → ∃ l : List Nat, (∀ n, l.length ≤ n → walk (queue f.mem).prev n (f.mem .top) = l ∧
        walk (queue f.mem).next n (f.mem .bottom) = l.reverse) ∧
        (l.length ≤ 2147483647 → f.mem .nMsg = (l.length : Int))) := by
  have hrun : ∃ f, Fine.run program (fineStart (fun _ => none) fun _ => none) (contend ++ bothPush) = some f := ⟨_, rfl⟩
  refine hrun.imp fun _ hf => ⟨hf, fine_safe _ _ hf (owned_contend fun t a ha => ?_) fun t ht => ?_⟩
  · simp [bothPush] at ha
  · simp [contend, bothPush] at ht

/-- **No deadlock**: in any state that a run reaches, a thread that waits for the lock gets it after accesses of its own and
of the thread that has it, if these do not follow a null pointer. -/
theorem fine_progress (next prev : M → Option M) {acts : List (Fine.Act T (Choice M))}
    {f : Fine T (Loc M) (Val M) (Pc M) (Calls M)} (hrun : Fine.run program (fineStart next prev) acts = some f)
    (halive : f.crashed = false) {t : T} {K : QueueCode M} (ht : f.phase t = .xchg K ∨ f.phase t = .spin K) :
    ∃ (us : List T) (f' : Fine T (Loc M) (Val M) (Pc M) (Calls M)), Fine.run program f (us.map .access) = some f' ∧
      (∀ u ∈ us, u = t ∨ ∃ K', f.phase u = .inside K') ∧ (f'.crashed = true ∨ f'.phase t = .inside K) :=
  (locked_run next prev hrun).progress halive ht

/-- The second thread waits while the first is in its section. -/
theorem fine_progress_two : ∃ f : Fine Nat (Loc Nat) (Val Nat) (Pc Nat) (Calls Nat),
    Fine.run program (fineStart (fun _ => none) fun _ => none) contend = some f ∧ f.lock = BUSY ∧
      f.phase 1 = .spin (linkBack 2) ∧ ∃ (us : List Nat) (f' : Fine Nat (Loc Nat) (Val Nat) (Pc Nat) (Calls Nat)),
        Fine.run program f (us.map .access) = some f' ∧ (∀ u ∈ us, u = 1 ∨ ∃ K', f.phase u = .inside K') ∧
          (f'.crashed = true ∨ f'.phase 1 = .inside (linkBack 2)) := by
  have hrun : ∃ f : Fine Nat (Loc Nat) (Val Nat) (Pc Nat) (Calls Nat),
      Fine.run program (fineStart (fun _ => none) fun _ => none) contend = some f ∧ f.crashed = false ∧ f.lock = BUSY ∧
        f.phase 1 = .spin (linkBack 2) := ⟨_, rfl, rfl, rfl, rfl⟩
  obtain ⟨f, hf, halive, hlock, hspin⟩ := hrun
  exact ⟨f, hf, hlock, hspin, fine_progress _ _ hf halive (Or.inr hspin)⟩

end Refinement

end FOSketch.SpinQueue
