import Mathlib.Data.List.Basic
import Mathlib.Logic.Function.Basic

/-!
# An atomic double-ended queue

Threads call and return, and between the two an operation takes place at once. Only `pop_back` has two parts: it looks
whether the queue is empty, and it takes the last message, which may be gone by then. `history` has the calls and the
returns as the threads see them.
-/

namespace FOSketch.Deque

variable {T M : Type*}

inductive Op (M : Type*) where
  | push_back (new_msg : M)
  | push_front (new_msg : M)
  | pop_front
  | pop_back

/-- A call, or a return: a push returns nothing, and a pop a message or `NULL`. -/
inductive Event (T M : Type*) where
  | call (t : T) (op : Op M)
  | ret (t : T) (msg : Option M)

inductive Pc (M : Type*) where
  | idle
  | called (op : Op M)
  | tested
  | done (msg : Option M)

structure Sys (T M : Type*) where
  list : List M
  pc : T → Pc M
  crashed : Bool
  history : List (Event T M)

def start : Sys T M := ⟨[], fun _ => .idle, false, []⟩

inductive Act (T M : Type*) where
  | call (t : T) (op : Op M)
  | take (t : T)
  | ret (t : T)

section Steps
variable [DecidableEq T]

/-- Thread `t` is at `pc`, the queue holds `l`, and the threads have seen the events. -/
def Sys.goto (d : Sys T M) (t : T) (pc : Pc M) (l : List M) (events : List (Event T M)) : Sys T M :=
  ⟨l, Function.update d.pc t pc, d.crashed, d.history ++ events⟩

/-- The operation of `t`, or a part of `pop_back`; the second part crashes if there is no message. -/
def Sys.take (d : Sys T M) (t : T) : Option (Sys T M) :=
  match d.pc t with
  | .called (.push_back m) => some (d.goto t (.done none) (d.list ++ [m]) [])
  | .called (.push_front m) => some (d.goto t (.done none) (m :: d.list) [])
  | .called .pop_front => some (d.goto t (.done d.list.head?) d.list.tail [])
  | .called .pop_back => some (d.goto t (if d.list.isEmpty then .done none else .tested) d.list [])
  | .tested => match d.list.getLast? with
    | none => some { d with crashed := true }
    | some m => some (d.goto t (.done (some m)) d.list.dropLast [])
  | _ => none

def step (d : Sys T M) (act : Act T M) : Option (Sys T M) :=
  if d.crashed then none
  else match act with
    | .call t op =>
      match d.pc t with
      | .idle => some (d.goto t (.called op) d.list [.call t op])
      | _ => none
    | .take t => d.take t
    | .ret t =>
      match d.pc t with
      | .done msg => some (d.goto t .idle d.list [.ret t msg])
      | _ => none

def run : Sys T M → List (Act T M) → Option (Sys T M)
  | d, [] => some d
  | d, act :: acts => (step d act).bind fun d => run d acts

/-! ## Runs -/

variable {d d' d'' : Sys T M} {t : T}

@[simp] theorem goto_goto (pc pc' : Pc M) (l l' : List M) (events events' : List (Event T M)) :
    (d.goto t pc l events).goto t pc' l' events' = d.goto t pc' l' (events ++ events') := by
  simp [Sys.goto]

theorem run_stay {pc : Pc M} (hpc : d.pc t = pc) : run d [] = some (d.goto t pc d.list []) := by
  subst hpc
  simp [run, Sys.goto]

theorem run_call (halive : d.crashed = false) (hpc : d.pc t = .idle) (op : Op M) :
    run d [.call t op] = some (d.goto t (.called op) d.list [.call t op]) := by
  simp [run, step, halive, hpc]

theorem run_take (halive : d.crashed = false) (htake : d.take t = some d') : run d [.take t] = some d' := by
  simp [run, step, halive, htake]

theorem run_ret (halive : d.crashed = false) {msg : Option M} (hpc : d.pc t = .done msg) :
    run d [.ret t] = some (d.goto t .idle d.list [.ret t msg]) := by
  simp [run, step, halive, hpc]

theorem run_append {acts acts' : List (Act T M)} (h : run d acts = some d') (h' : run d' acts' = some d'') :
    run d (acts ++ acts') = some d'' := by
  induction acts generalizing d with
  | nil =>
    obtain rfl := Option.some.inj h
    exact h'
  | cons act acts ih =>
    obtain ⟨d₁, hstep, hrun⟩ := Option.bind_eq_some_iff.mp h
    rw [List.cons_append, run, hstep, Option.bind_some]
    exact ih hrun

/-- `pop_back` was called, if a thread is in it or a null pointer was used. -/
def Blamed (d : Sys T M) : Prop :=
  d.crashed = true ∨ (∃ t, d.pc t = .tested ∨ d.pc t = .called .pop_back) → ∃ t, .call t .pop_back ∈ d.history

theorem Blamed.goto (h : Blamed d) {pc : Pc M} {events : List (Event T M)}
    (hpc : pc = .tested ∨ pc = .called .pop_back → ∃ t, .call t .pop_back ∈ d.history ++ events) (l : List M) :
    Blamed (d.goto t pc l events) := by
  have hgrow : (∃ u, .call u .pop_back ∈ d.history) → ∃ u, .call u .pop_back ∈ d.history ++ events := fun ⟨u, hu⟩ =>
    ⟨u, List.mem_append_left events hu⟩
  rintro (hcrashed | ⟨u, hu⟩)
  · exact hgrow (h (Or.inl hcrashed))
  · by_cases hut : u = t
    · subst hut
      exact hpc (by simpa [Sys.goto] using hu)
    · exact hgrow (h (Or.inr ⟨u, by simpa [Sys.goto, hut] using hu⟩))

theorem Blamed.take (h : Blamed d) (htake : d.take t = some d') : Blamed d' := by
  unfold Sys.take at htake
  split at htake
  · obtain rfl := Option.some.inj htake
    exact h.goto (by simp) _
  · obtain rfl := Option.some.inj htake
    exact h.goto (by simp) _
  · obtain rfl := Option.some.inj htake
    exact h.goto (by simp) _
  · obtain rfl := Option.some.inj htake
    refine h.goto (fun _ => ?_) d.list
    rw [List.append_nil]
    exact h (Or.inr ⟨t, Or.inr ‹_›⟩)
  · split at htake
    · obtain rfl := Option.some.inj htake
      exact fun _ => h (Or.inr ⟨t, Or.inl ‹_›⟩)
    · obtain rfl := Option.some.inj htake
      exact h.goto (by simp) _
  · cases htake

theorem Blamed.step (h : Blamed d) {act : Act T M} (hstep : Deque.step d act = some d') : Blamed d' := by
  unfold Deque.step at hstep
  split_ifs at hstep
  cases act with
  | call t op =>
    dsimp only at hstep
    split at hstep
    · obtain rfl := Option.some.inj hstep
      refine h.goto (fun hop => ⟨t, ?_⟩) d.list
      obtain rfl : op = .pop_back := by simpa using hop
      exact List.mem_append_right _ (List.mem_singleton_self _)
    · cases hstep
  | take t => exact h.take hstep
  | ret t =>
    dsimp only at hstep
    split at hstep
    · obtain rfl := Option.some.inj hstep
      exact h.goto (by simp) d.list
    · cases hstep

/-- Only `pop_back` uses a null pointer. -/
theorem Blamed.run (h : Blamed d) {acts : List (Act T M)} (hrun : Deque.run d acts = some d') : Blamed d' := by
  induction acts generalizing d with
  | nil =>
    obtain rfl := Option.some.inj hrun
    exact h
  | cons act acts ih =>
    obtain ⟨d₁, hstep, hrest⟩ := Option.bind_eq_some_iff.mp hrun
    exact ih (h.step hstep) hrest

omit [DecidableEq T] in
theorem blamed_start : Blamed (start : Sys T M) := by
  rintro (hcrashed | ⟨t, ht | ht⟩)
  · cases hcrashed
  · cases ht
  · cases ht

end Steps

end FOSketch.Deque
