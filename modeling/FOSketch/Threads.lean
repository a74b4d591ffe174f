import FOSketch.Queue

/-!
# The queue under threads

Any number of threads call the operations of the queue. The steps are the sections under the lock, the test of `pop_back`
before its section, and the writes to the links of a message outside the lock. A message is pushed only when all its earlier
pushes were returned. The runs are safe exactly if no `pop_back` gets the lock when the queue is empty
(`run_safe_iff`): other threads may empty it after the test.
-/

namespace FOSketch.Threads

open Linked Queue

variable {T M : Type*}

/-! ## The steps -/

/-- Where a thread is: outside the operations, before the lock or, with the message that it got, behind it. -/
inductive Pc (M : Type*) where
  | idle
  | push_back (new_msg : M)
  | push_front (new_msg : M)
  | pop_back
  | popped (msg : M)

def Pc.msg : Pc M → Option M
  | .push_back m => some m
  | .push_front m => some m
  | .popped m => some m
  | _ => none

/-- The queue, the threads, whether a null pointer was followed, and the messages of all calls so far. -/
structure Sys (T M : Type*) where
  q : Queue M
  pc : T → Pc M
  crashed : Bool
  pushed : List M
  returned : List M

def start (next prev : M → Option M) : Sys T M := ⟨queue_init next prev, fun _ => .idle, false, [], []⟩

/-- The next step of a thread. -/
inductive Act (T M : Type*) where
  | push_back (t : T) (new_msg : M)
  | push_front (t : T) (new_msg : M)
  | link (t : T)
  | takeFront (t : T)
  | test (t : T)
  | takeBack (t : T)
  | leave (t : T)

section Steps
variable [DecidableEq T] [DecidableEq M]

/-- A step, if the thread is there: a call clears the links of its message, `link`, `takeFront` and `takeBack` are the
sections under the lock, `test` is the first line of `pop_back`, and `leave` clears the links and returns. -/
def step (s : Sys T M) (a : Act T M) : Option (Sys T M) :=
  if s.crashed then none
  else match a with
    | .push_back t m =>
      match s.pc t with
      | .idle =>
        if s.pushed.count m = s.returned.count m then
          some { s with q := s.q.clear m, pc := Function.update s.pc t (.push_back m), pushed := m :: s.pushed }
        else none
      | _ => none
    | .push_front t m =>
      match s.pc t with
      | .idle =>
        if s.pushed.count m = s.returned.count m then
          some { s with q := s.q.clear m, pc := Function.update s.pc t (.push_front m), pushed := m :: s.pushed }
        else none
      | _ => none
    | .link t =>
      match s.pc t with
      | .push_back m => some { s with q := s.q.linkBack m, pc := Function.update s.pc t .idle }
      | .push_front m => some { s with q := s.q.linkFront m, pc := Function.update s.pc t .idle }
      | _ => none
    | .takeFront t =>
      match s.pc t with
      | .idle =>
        match s.q.takeFront with
        | (_, none) => some s
        | (q, some m) => some { s with q := q, pc := Function.update s.pc t (.popped m) }
      | _ => none
    | .test t =>
      match s.pc t with
      | .idle => if s.q.bottom = none then some s else some { s with pc := Function.update s.pc t .pop_back }
      | _ => none
    | .takeBack t =>
      match s.pc t with
      | .pop_back =>
        match s.q.takeBack with
        | none => some { s with crashed := true }
        | some (q, m) => some { s with q := q, pc := Function.update s.pc t (.popped m) }
      | _ => none
    | .leave t =>
      match s.pc t with
      | .popped m =>
        some { s with q := s.q.clear m, pc := Function.update s.pc t .idle, returned := m :: s.returned }
      | _ => none

/-- An interleaving. -/
def run : Sys T M → List (Act T M) → Option (Sys T M)
  | s, [] => some s
  | s, a :: acts => (step s a).bind fun s => run s acts

/-- Every `takeBack` finds a message. -/
def Guarded : Sys T M → List (Act T M) → Prop
  | _, [] => True
  | s, a :: acts => (∀ t, a = .takeBack t → s.q.bottom ≠ none) ∧ ∀ s', step s a = some s' → Guarded s' acts

/-- No null pointer was followed, no push was returned twice, and `nMsg` is the number of messages between `top` and
`bottom`, as far as an `int` goes. -/
structure Safe (s : Sys T M) : Prop where
  alive : s.crashed = false
  once : ∀ m, s.returned.count m ≤ s.pushed.count m
  counted : ∃ l : List M, (∀ n, l.length ≤ n → walk s.q.prev n s.q.top = l ∧ walk s.q.next n s.q.bottom = l.reverse) ∧
    (l.length ≤ 2147483647 → s.q.nMsg = l.length)

/-! ## Who has a message -/

/-- A message is with its owner, in the queue, or with a thread. -/
inductive Place (T : Type*) where
  | free
  | queued
  | held (t : T)

/-- The threads have the messages that lie with them. -/
def Held (pc : T → Pc M) (place : M → Place T) : Prop := ∀ t m, (pc t).msg = some m ↔ place m = .held t

omit [DecidableEq T] [DecidableEq M] in
theorem Held.not_msg {pc : T → Pc M} {place : M → Place T} (h : Held pc place) {m : M} (hm : ∀ t, place m ≠ .held t)
    (t : T) :
    (pc t).msg ≠ some m := fun he => hm t ((h t m).mp he)

theorem Held.acquire {pc : T → Pc M} {place : M → Place T} (h : Held pc place) {t : T} (ht : (pc t).msg = none) {m : M}
    (hm : ∀ t, place m ≠ .held t) {p : Pc M} (hp : p.msg = some m) :
    Held (Function.update pc t p) (Function.update place m (.held t)) := by
  intro u x
  by_cases hu : u = t
  · subst hu
    rw [Function.update_self, hp]
    by_cases hx : x = m
    · subst hx
      rw [Function.update_self]
      exact iff_of_true rfl rfl
    · rw [Function.update_of_ne hx, ← h u x, ht]
      exact iff_of_false (fun he => hx (Option.some.inj he).symm) (Option.some_ne_none x).symm
  · rw [Function.update_of_ne hu]
    by_cases hx : x = m
    · subst hx
      rw [Function.update_self]
      refine iff_of_false (h.not_msg hm u) fun he => hu ?_
      cases he
      rfl
    · rw [Function.update_of_ne hx]
      exact h u x

theorem Held.release {pc : T → Pc M} {place : M → Place T} (h : Held pc place) {t : T} {m : M} (ht : (pc t).msg = some m)
    {p : Pc M} (hp : p.msg = none) {dest : Place T} (hdest : ∀ t, dest ≠ .held t) :
    Held (Function.update pc t p) (Function.update place m dest) := by
  have hplace := (h t m).mp ht
  intro u x
  by_cases hu : u = t
  · subst hu
    rw [Function.update_self, hp]
    by_cases hx : x = m
    · subst hx
      rw [Function.update_self]
      exact iff_of_false (Option.some_ne_none x).symm (hdest u)
    · rw [Function.update_of_ne hx, ← h u x, ht]
      exact iff_of_false (Option.some_ne_none x).symm fun he => hx (Option.some.inj he).symm
  · rw [Function.update_of_ne hu]
    by_cases hx : x = m
    · subst hx
      rw [Function.update_self, h u x, hplace]
      refine iff_of_false (fun he => hu ?_) (hdest u)
      cases he
      rfl
    · rw [Function.update_of_ne hx]
      exact h u x

omit [DecidableEq M] in
theorem Held.stay {pc : T → Pc M} {place : M → Place T} (h : Held pc place) {t : T} {p : Pc M} (hp : p.msg = (pc t).msg) :
    Held (Function.update pc t p) place := by
  intro u x
  by_cases hu : u = t
  · subst hu
    rw [Function.update_self, hp]
    exact h u x
  · rw [Function.update_of_ne hu]
    exact h u x

/-! ## The invariant -/

/-- How many pushes of the message were not returned. -/
def Place.out : Place T → Nat
  | .free => 0
  | .queued => 1
  | .held _ => 1

/-- The queue holds `l`, every message is in one place, and the messages on their way to the queue have no links. -/
structure Inv (s : Sys T M) (l : List M) (place : M → Place T) : Prop where
  alive : s.crashed = false
  holds : s.q.Holds l
  queued : ∀ m, m ∈ l ↔ place m = .queued
  held : Held s.pc place
  ready : ∀ t m, s.pc t = .push_back m ∨ s.pc t = .push_front m → Cleared s.q m
  count : ∀ m, s.pushed.count m = s.returned.count m + (place m).out

omit [DecidableEq T] [DecidableEq M] in
theorem msg_of_push {p : Pc M} {m : M} (h : p = .push_back m ∨ p = .push_front m) : p.msg = some m := by
  rcases h with rfl | rfl
  · rfl
  · rfl

omit [DecidableEq T] in
theorem queued_update {l l' : List M} {place : M → Place T} (h : ∀ x, x ∈ l ↔ place x = .queued) {m : M} {dest : Place T}
    (hm : m ∈ l' ↔ dest = .queued) (hother : ∀ x, x ≠ m → (x ∈ l' ↔ x ∈ l)) (x : M) :
    x ∈ l' ↔ Function.update place m dest x = .queued := by
  by_cases hx : x = m
  · subst hx
    rw [Function.update_self]
    exact hm
  · rw [Function.update_of_ne hx, hother x hx]
    exact h x

omit [DecidableEq M] in
theorem ready_update {pc : T → Pc M} {q q' : Queue M} (h : ∀ t m, pc t = .push_back m ∨ pc t = .push_front m → Cleared q m)
    {t : T} {p : Pc M} (hsame : ∀ u m, u ≠ t → (pc u).msg = some m → SameLinks q q' m)
    (hp : ∀ m, p = .push_back m ∨ p = .push_front m → Cleared q' m) (u : T) (m : M)
    (hu : Function.update pc t p u = .push_back m ∨ Function.update pc t p u = .push_front m) : Cleared q' m := by
  by_cases hut : u = t
  · subst hut
    rw [Function.update_self] at hu
    exact hp m hu
  · rw [Function.update_of_ne hut] at hu
    exact (hsame u m hut (msg_of_push hu)).cleared (h u m hu)

section Preserved
variable {s : Sys T M} {l : List M} {place : M → Place T} (h : Inv s l place) {t : T} {m : M}
include h

omit [DecidableEq T] in
theorem Inv.free_of_count (hm : s.pushed.count m = s.returned.count m) : place m = .free := by
  have hcount := h.count m
  cases hplace : place m with
  | free => rfl
  | queued =>
    rw [hplace, Place.out] at hcount
    omega
  | held t =>
    rw [hplace, Place.out] at hcount
    omega

omit [DecidableEq T] in
/-- Two threads do not have one message. -/
theorem Inv.other_msg {u : T} {x : M} (hu : u ≠ t) (hx : (s.pc u).msg = some x) (ht : (s.pc t).msg = some m) :
    x ≠ m := by
  rintro rfl
  have hsame := ((h.held u x).mp hx).symm.trans ((h.held t x).mp ht)
  cases hsame
  exact hu rfl

omit [DecidableEq T] in
/-- A message that a thread has is not in the queue. -/
theorem Inv.not_mem_of_msg (ht : (s.pc t).msg = some m) : m ∉ l := by
  intro hm
  have hplace := ((h.queued m).mp hm).symm.trans ((h.held t m).mp ht)
  cases hplace

theorem Inv.push (ht : (s.pc t).msg = none) (hm : s.pushed.count m = s.returned.count m) {p : Pc M} (hp : p.msg = some m) :
    Inv { s with q := s.q.clear m, pc := Function.update s.pc t p, pushed := m :: s.pushed } l
      (Function.update place m (.held t)) := by
  have hfree := h.free_of_count hm
  have hml : m ∉ l := by
    rw [h.queued, hfree]
    exact nofun
  have hnot : ∀ u, place m ≠ .held u := by
    intro u
    rw [hfree]
    exact nofun
  refine ⟨h.alive, h.holds.clear hml, ?_, h.held.acquire ht hnot hp, ?_, fun x => ?_⟩
  · exact queued_update h.queued (iff_of_false hml nofun) fun _ _ => Iff.rfl
  · refine ready_update h.ready (fun u x _ hx => sameLinks_clear fun he => ?_) fun x hx => ?_
    · exact h.held.not_msg hnot u (he ▸ hx)
    · obtain rfl := Option.some.inj (hp.symm.trans (msg_of_push hx))
      exact cleared_clear s.q m
  · by_cases hx : x = m
    · subst hx
      rw [Function.update_self, List.count_cons_self, hm]
      rfl
    · rw [Function.update_of_ne hx, List.count_cons_of_ne (Ne.symm hx)]
      exact h.count x

omit [DecidableEq T] in
theorem Inv.count_moved {dest : Place T} (hm : (place m).out = dest.out) (x : M) :
    s.pushed.count x = s.returned.count x + (Function.update place m dest x).out := by
  by_cases hx : x = m
  · subst hx
    rw [Function.update_self, ← hm]
    exact h.count x
  · rw [Function.update_of_ne hx]
    exact h.count x

theorem Inv.link (ht : (s.pc t).msg = some m) {q : Queue M} {l' : List M} (hq : q.Holds l')
    (hmem : ∀ x, x ∈ l' ↔ x = m ∨ x ∈ l) (hsame : ∀ x ∉ l, x ≠ m → SameLinks s.q q x) :
    Inv { s with q := q, pc := Function.update s.pc t .idle } l' (Function.update place m .queued) := by
  have hplace := (h.held t m).mp ht
  refine ⟨h.alive, hq, ?_, h.held.release ht rfl nofun, ?_, h.count_moved (by rw [hplace]; rfl)⟩
  · refine queued_update h.queued (iff_of_true ((hmem m).mpr (Or.inl rfl)) rfl) fun x hx => ?_
    rw [hmem, or_iff_right hx]
  · apply ready_update h.ready (fun u x hu hx => hsame x (h.not_mem_of_msg hx) (h.other_msg hu hx ht))
    rintro x (hx | hx)
    · cases hx
    · cases hx

theorem Inv.take (ht : (s.pc t).msg = none) {q : Queue M} {l' : List M} (hq : q.Holds l') (hml : m ∈ l)
    (hmem : ∀ x, x ∈ l' ↔ x ≠ m ∧ x ∈ l) (hsame : ∀ x ∉ l', SameLinks s.q q x) :
    Inv { s with q := q, pc := Function.update s.pc t (.popped m) } l' (Function.update place m (.held t)) := by
  have hplace := (h.queued m).mp hml
  have hnot : ∀ u, place m ≠ .held u := by
    intro u
    rw [hplace]
    exact nofun
  refine ⟨h.alive, hq, ?_, h.held.acquire ht hnot rfl, ?_, h.count_moved (by rw [hplace]; rfl)⟩
  · refine queued_update h.queued (iff_of_false (fun hm => ((hmem m).mp hm).1 rfl) nofun) fun x hx => ?_
    rw [hmem, and_iff_right hx]
  · refine ready_update h.ready (fun u x _ hx => hsame x fun hl => ?_) ?_
    · exact h.not_mem_of_msg hx ((hmem x).mp hl).2
    · rintro x (hx | hx)
      · cases hx
      · cases hx

theorem Inv.leave (ht : s.pc t = .popped m) :
    Inv { s with q := s.q.clear m, pc := Function.update s.pc t .idle, returned := m :: s.returned } l
      (Function.update place m .free) := by
  have hmsg : (s.pc t).msg = some m := by rw [ht]; rfl
  have hml := h.not_mem_of_msg hmsg
  have hplace := (h.held t m).mp hmsg
  refine ⟨h.alive, h.holds.clear hml, ?_, h.held.release hmsg rfl nofun, ?_, fun x => ?_⟩
  · exact queued_update h.queued (iff_of_false hml nofun) fun _ _ => Iff.rfl
  · apply ready_update h.ready (fun u x hu hx => sameLinks_clear (h.other_msg hu hx hmsg))
    rintro x (hx | hx)
    · cases hx
    · cases hx
  · by_cases hx : x = m
    · subst hx
      rw [Function.update_self, List.count_cons_self, h.count, hplace]
      rfl
    · rw [Function.update_of_ne hx, List.count_cons_of_ne (Ne.symm hx)]
      exact h.count x

theorem Inv.stay (ht : s.pc t = .idle) : Inv { s with pc := Function.update s.pc t .pop_back } l place := by
  refine ⟨h.alive, h.holds, h.queued, h.held.stay (by rw [ht]; rfl), ?_, h.count⟩
  apply ready_update h.ready (fun _ _ _ _ => ⟨rfl, rfl⟩)
  rintro x (hx | hx)
  · cases hx
  · cases hx

theorem Inv.linkBack (ht : s.pc t = .push_back m) :
    Inv { s with q := s.q.linkBack m, pc := Function.update s.pc t .idle } (l ++ [m])
      (Function.update place m .queued) := by
  have hmsg : (s.pc t).msg = some m := by rw [ht]; rfl
  have hml := h.not_mem_of_msg hmsg
  obtain ⟨hnext, hprev⟩ := h.ready t m (Or.inl ht)
  refine h.link hmsg (h.holds.linkBack hml hnext hprev) (fun x => ?_) fun x hx hxm => h.holds.sameLinks_linkBack hx hxm
  rw [List.mem_append, List.mem_singleton, or_comm]

theorem Inv.linkFront (ht : s.pc t = .push_front m) :
    Inv { s with q := s.q.linkFront m, pc := Function.update s.pc t .idle } (m :: l)
      (Function.update place m .queued) := by
  have hmsg : (s.pc t).msg = some m := by rw [ht]; rfl
  have hml := h.not_mem_of_msg hmsg
  obtain ⟨hnext, hprev⟩ := h.ready t m (Or.inr ht)
  apply h.link hmsg (h.holds.linkFront hml hnext hprev)
  · exact fun x => List.mem_cons
  · exact fun x hx hxm => h.holds.sameLinks_linkFront hx hxm

theorem Inv.takeFront {l' : List M} (hl : l = m :: l') (ht : s.pc t = .idle) :
    ∃ q, s.q.takeFront = (q, some m) ∧
      Inv { s with q := q, pc := Function.update s.pc t (.popped m) } l' (Function.update place m (.held t)) := by
  subst hl
  obtain ⟨q, htake, hq, hsame⟩ := h.holds.takeFront_cons
  have hml := (List.nodup_cons.mp h.holds.nodup).1
  refine ⟨q, htake, h.take (by rw [ht]; rfl) hq List.mem_cons_self (fun x => ?_) hsame⟩
  rw [List.mem_cons]
  exact ⟨fun hx => ⟨ne_of_mem_of_not_mem hx hml, Or.inr hx⟩, fun hx => hx.2.resolve_left hx.1⟩

theorem Inv.takeBack {l' : List M} (hl : l = l' ++ [m]) (ht : s.pc t = .pop_back) :
    ∃ q, s.q.takeBack = some (q, m) ∧
      Inv { s with q := q, pc := Function.update s.pc t (.popped m) } l' (Function.update place m (.held t)) := by
  subst hl
  obtain ⟨q, htake, hq, hsame⟩ := h.holds.takeBack_concat
  have hmem := List.mem_append_right l' (List.mem_singleton_self m)
  have hml : m ∉ l' := fun hm => (List.nodup_append.mp h.holds.nodup).2.2 m hm m (List.mem_singleton_self m) rfl
  refine ⟨q, htake, h.take (by rw [ht]; rfl) hq hmem (fun x => ?_) hsame⟩
  rw [List.mem_append, List.mem_singleton]
  exact ⟨fun hx => ⟨ne_of_mem_of_not_mem hx hml, Or.inl hx⟩, fun hx => hx.2.resolve_right hx.1⟩

/-- **One step** keeps the invariant, if it is not a `takeBack` on an empty queue. -/
theorem Inv.step {a : Act T M} {s' : Sys T M} (hs : Threads.step s a = some s')
    (hguard : ∀ t, a = .takeBack t → s.q.bottom ≠ none) : ∃ l' place', Inv s' l' place' := by
  have halive : ¬s.crashed = true := by
    rw [h.alive]
    exact Bool.false_ne_true
  unfold Threads.step at hs
  rw [if_neg halive] at hs
  cases a with
  | push_back t m =>
    dsimp only at hs
    split at hs
    · split_ifs at hs with hfree
      obtain rfl := Option.some.inj hs
      exact ⟨l, _, h.push (by rw [‹s.pc t = .idle›]; rfl) hfree rfl⟩
    · cases hs
  | push_front t m =>
    dsimp only at hs
    split at hs
    · split_ifs at hs with hfree
      obtain rfl := Option.some.inj hs
      exact ⟨l, _, h.push (by rw [‹s.pc t = .idle›]; rfl) hfree rfl⟩
    · cases hs
  | link t =>
    dsimp only at hs
    split at hs
    · obtain rfl := Option.some.inj hs
      exact ⟨_, _, h.linkBack ‹_›⟩
    · obtain rfl := Option.some.inj hs
      exact ⟨_, _, h.linkFront ‹_›⟩
    · cases hs
  | takeFront t =>
    dsimp only at hs
    split at hs
    · rename_i hpc
      cases hl : l with
      | nil =>
        subst hl
        rw [h.holds.takeFront_nil] at hs
        obtain rfl := Option.some.inj hs
        exact ⟨[], place, h⟩
      | cons m l' =>
        obtain ⟨q, htake, hinv⟩ := h.takeFront hl hpc
        rw [htake] at hs
        obtain rfl := Option.some.inj hs
        exact ⟨_, _, hinv⟩
    · cases hs
  | test t =>
    dsimp only at hs
    split at hs
    · split_ifs at hs
      · obtain rfl := Option.some.inj hs
        exact ⟨l, place, h⟩
      · obtain rfl := Option.some.inj hs
        exact ⟨l, place, h.stay ‹s.pc t = .idle›⟩
    · cases hs
  | takeBack t =>
    dsimp only at hs
    split at hs
    · rename_i hpc
      rcases List.eq_nil_or_concat l with hl | ⟨l', m, hl⟩
      · subst hl
        exact absurd h.holds.bottom (hguard t rfl)
      · rw [List.concat_eq_append] at hl
        obtain ⟨q, htake, hinv⟩ := h.takeBack hl hpc
        rw [htake] at hs
        obtain rfl := Option.some.inj hs
        exact ⟨_, _, hinv⟩
    · cases hs
  | leave t =>
    dsimp only at hs
    split at hs
    · obtain rfl := Option.some.inj hs
      exact ⟨l, _, h.leave ‹_›⟩
    · cases hs

omit [DecidableEq T] in
theorem Inv.safe : Safe s := by
  refine ⟨h.alive, fun x => ?_, l, fun n hn => ⟨?_, ?_⟩, fun hmax => h.holds.count.trans (toInt32_of_le hmax)⟩
  · rw [h.count]
    exact Nat.le_add_right _ _
  · rw [h.holds.top]
    exact h.holds.chain.walk_prev hn
  · rw [h.holds.bottom]
    exact h.holds.chain.walk_next hn

end Preserved

/-! ## Runs -/

omit [DecidableEq T] in
theorem inv_start (next prev : M → Option M) : Inv (start next prev : Sys T M) [] fun _ => .free := by
  refine ⟨rfl, holds_init next prev, fun m => iff_of_false List.not_mem_nil nofun, fun t m => iff_of_false nofun nofun, ?_,
    fun _ => rfl⟩
  rintro t m (hx | hx)
  · cases hx
  · cases hx

theorem run_of_crashed {s s' : Sys T M} (hcrashed : s.crashed = true) {acts : List (Act T M)} (hs : run s acts = some s') :
    s'.crashed = true := by
  cases acts with
  | nil =>
    obtain rfl := Option.some.inj hs
    exact hcrashed
  | cons a acts =>
    have hstep : step s a = none := by
      unfold step
      rw [if_pos hcrashed]
    rw [run, hstep] at hs
    cases hs

/-- A `takeBack` on an empty queue crashes, and nothing follows. -/
theorem run_of_null {s s' : Sys T M} {t : T} {acts : List (Act T M)} (hbottom : s.q.bottom = none)
    (hs : run s (.takeBack t :: acts) = some s') : s'.crashed = true := by
  rw [run, Option.bind_eq_some_iff] at hs
  obtain ⟨s₁, hstep, hrun⟩ := hs
  have htake : s.q.takeBack = none := by
    unfold takeBack
    rw [hbottom]
  refine run_of_crashed ?_ hrun
  unfold step at hstep
  split_ifs at hstep
  dsimp only at hstep
  split at hstep
  · rw [htake] at hstep
    obtain rfl := Option.some.inj hstep
    rfl
  · cases hstep

theorem guarded_cons {s s₁ : Sys T M} {a : Act T M} {acts : List (Act T M)} (hstep : step s a = some s₁)
    (hguard : ∀ t, a = .takeBack t → s.q.bottom ≠ none) (h : Guarded s₁ acts) : Guarded s (a :: acts) := by
  refine ⟨hguard, fun s₂ hs₂ => ?_⟩
  obtain rfl := Option.some.inj (hstep.symm.trans hs₂)
  exact h

/-- The state of a run is safe exactly if every `takeBack` on the way found a message. -/
theorem Inv.run {s s' : Sys T M} {l : List M} {place : M → Place T} (h : Inv s l place) {acts : List (Act T M)}
    (hs : Threads.run s acts = some s') : Safe s' ↔ Guarded s acts := by
  induction acts generalizing s l place with
  | nil =>
    obtain rfl := Option.some.inj hs
    exact iff_of_true h.safe trivial
  | cons a acts ih =>
    by_cases hguard : ∀ t, a = .takeBack t → s.q.bottom ≠ none
    · rw [Threads.run, Option.bind_eq_some_iff] at hs
      obtain ⟨s₁, hstep, hrun⟩ := hs
      obtain ⟨l', place', hinv⟩ := h.step hstep hguard
      rw [ih hinv hrun]
      exact ⟨guarded_cons hstep hguard, fun hg => hg.2 s₁ hstep⟩
    · refine iff_of_false (fun hsafe => ?_) fun hg => hguard hg.1
      obtain ⟨t, ht⟩ := not_forall.mp hguard
      obtain ⟨rfl, hbottom⟩ := Classical.not_imp.mp ht
      rw [not_not] at hbottom
      exact Bool.false_ne_true (hsafe.alive.symm.trans (run_of_null hbottom hs))

/-- **The queue under threads**: a run is safe exactly if every `takeBack` finds a message. -/
theorem run_safe_iff (next prev : M → Option M) {acts : List (Act T M)} {s : Sys T M}
    (hs : run (start next prev) acts = some s) : Safe s ↔ Guarded (start next prev) acts :=
  (inv_start next prev).run hs

end Steps

/-! ### Three threads -/

/-- One message, pushed and popped at both ends by two threads, one after the other. -/
theorem run_safe_two : ∃ s : Sys Nat Nat,
    run (start (fun _ => none) fun _ => none) [.push_back 0 1, .link 0, .test 1, .takeBack 1, .leave 1, .takeFront 2] = some s ∧
      Safe s := by
  obtain ⟨s, hs⟩ : ∃ s : Sys Nat Nat, run (start (fun _ => none) fun _ => none)
      [.push_back 0 1, .link 0, .test 1, .takeBack 1, .leave 1, .takeFront 2] = some s := ⟨_, rfl⟩
  refine ⟨s, hs, (run_safe_iff _ _ hs).mpr ?_⟩
  refine guarded_cons rfl nofun (guarded_cons rfl nofun (guarded_cons rfl nofun (guarded_cons rfl (fun _ _ => ?_)
    (guarded_cons rfl nofun (guarded_cons rfl nofun trivial)))))
  exact Option.some_ne_none 1

/-- Two threads test while there is one message; the second gets the lock when it is gone. -/
theorem run_race : ∃ s : Sys Nat Nat,
    run (start (fun _ => none) fun _ => none) [.push_back 0 1, .link 0, .test 1, .test 2, .takeBack 1, .takeBack 2] = some s ∧
      s.crashed = true :=
  ⟨_, rfl, rfl⟩

end FOSketch.Threads
