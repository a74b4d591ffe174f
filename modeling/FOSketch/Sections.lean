import Mathlib

/-!
# Sections under a spin lock

Threads share a memory. `Code` is what a thread does under the lock: reads, writes and a result, or the use of a null
pointer. A `Program` says what a thread may do outside: a `Task` with at most one access, or a section. `Coarse.Step` runs
a section in one step, between the call of `spin_lock` and the end of the section. `Fine.step` takes the lock as
`spin_lock` does and runs the section access by access.

One location, `b`, is read outside the lock. If no section writes it twice, and the accesses outside stay away from the
locations that a section of another thread uses (`Discipline`), then every fine run is a coarse run with the same trace
(`Sim.run`): a section takes place when it writes `b`, or at its end.
-/

namespace FOSketch.Sections

variable {T L P A G : Type*} {V : L → Type*}

/-! ## Code -/

/-- Code with its accesses. -/
inductive Code (L : Type*) (V : L → Type*) (P : Type*) where
  | ret (p : P)
  | null
  | read (x : L) (k : V x → Code L V P)
  | write (x : L) (v : V x) (k : Code L V P)

namespace Code
section Run
variable [DecidableEq L]

def run : Code L V P → (∀ x, V x) → Option (P × ∀ x, V x)
  | ret p, m => some (p, m)
  | null, _ => none
  | read x k, m => (k (m x)).run m
  | write x v k, m => k.run (Function.update m x v)

/-- No access in `D`. -/
def Avoids (D : Set L) : Code L V P → (∀ x, V x) → Prop
  | ret _, _ => True
  | null, _ => True
  | read x k, m => x ∉ D ∧ (k (m x)).Avoids D m
  | write x v k, m => x ∉ D ∧ k.Avoids D (Function.update m x v)

/-- The code does not write `b` and does not fail. -/
def Late (b : L) : Code L V P → Prop
  | ret _ => True
  | null => False
  | read _ k => ∀ v, (k v).Late b
  | write x _ k => x ≠ b ∧ k.Late b

/-- The code writes `b` once at most, and does not fail after that. -/
def Once (b : L) : Code L V P → Prop
  | ret _ => True
  | null => True
  | read _ k => ∀ v, (k v).Once b
  | write x _ k => if x = b then k.Late b else k.Once b

theorem Avoids.mono {D D' : Set L} (hD : D' ⊆ D) {K : Code L V P} {m : ∀ x, V x} (h : K.Avoids D m) : K.Avoids D' m := by
  induction K generalizing m with
  | ret p => trivial
  | null => trivial
  | read x k ih => exact ⟨fun hx => h.1 (hD hx), ih _ h.2⟩
  | write x v k ih => exact ⟨fun hx => h.1 (hD hx), ih h.2⟩

section Piecewise
variable {D : Set L} [∀ x, Decidable (x ∈ D)] {m m' : ∀ x, V x} {x : L}

theorem update_piecewise_of_notMem (hx : x ∉ D) (v : V x) :
    Function.update (D.piecewise m' m) x v = D.piecewise m' (Function.update m x v) := by
  funext y
  by_cases hyx : y = x
  · subst hyx
    simp [hx]
  · by_cases hy : y ∈ D
    · simp [hyx, hy]
    · simp [hyx, hy]

theorem update_piecewise_of_mem (hx : x ∈ D) (v : V x) :
    Function.update (D.piecewise m' m) x v = D.piecewise (Function.update m' x v) m := by
  funext y
  by_cases hyx : y = x
  · subst hyx
    simp [hx]
  · by_cases hy : y ∈ D
    · simp [hyx, hy]
    · simp [hyx, hy]

/-- Code that avoids `D` does the same whatever is in `D`. -/
theorem Avoids.piecewise {K : Code L V P} (h : K.Avoids D m) (m' : ∀ x, V x) :
    K.Avoids D (D.piecewise m' m) ∧
      K.run (D.piecewise m' m) = (K.run m).map fun r => (r.1, D.piecewise m' r.2) := by
  induction K generalizing m with
  | ret p => exact ⟨trivial, rfl⟩
  | null => exact ⟨trivial, rfl⟩
  | read x k ih =>
    obtain ⟨hx, h⟩ := h
    rw [Avoids, run, run, Set.piecewise_eq_of_notMem D m' m hx]
    obtain ⟨h₁, h₂⟩ := ih _ h
    exact ⟨⟨hx, h₁⟩, h₂⟩
  | write x v k ih =>
    obtain ⟨hx, h⟩ := h
    rw [Avoids, run, run, update_piecewise_of_notMem hx]
    obtain ⟨h₁, h₂⟩ := ih h
    exact ⟨⟨hx, h₁⟩, h₂⟩

theorem Avoids.run_frame {K : Code L V P} (h : K.Avoids D m) {p : P} {n : ∀ x, V x} (hrun : K.run m = some (p, n)) :
    D.piecewise m n = n := by
  have hself := (h.piecewise m).2
  rw [Set.piecewise_same, hrun, Option.map_some, Option.some.injEq, Prod.mk.injEq] at hself
  exact hself.2.symm

/-- A write that the code avoids may come before or after it. -/
theorem Avoids.update {K : Code L V P} (h : K.Avoids D m) (hx : x ∈ D) (v : V x) :
    K.Avoids D (Function.update m x v) ∧
      K.run (Function.update m x v) = (K.run m).map fun r => (r.1, Function.update r.2 x v) := by
  have hm : D.piecewise (Function.update m x v) m = Function.update m x v := by
    rw [← update_piecewise_of_mem hx, Set.piecewise_same]
  obtain ⟨h₁, h₂⟩ := h.piecewise (Function.update m x v)
  rw [hm] at h₁ h₂
  refine ⟨h₁, h₂.trans ?_⟩
  cases hrun : K.run m with
  | none => rfl
  | some r => rw [Option.map_some, Option.map_some, ← update_piecewise_of_mem hx, h.run_frame hrun]

end Piecewise

theorem Late.once {b : L} {K : Code L V P} (h : K.Late b) : K.Once b := by
  induction K with
  | ret p => trivial
  | null => trivial
  | read x k ih => exact fun v => ih v (h v)
  | write x v k ih =>
    rw [Once, if_neg h.1]
    exact ih h.2

theorem Late.run {b : L} {K : Code L V P} (h : K.Late b) (m : ∀ x, V x) :
    ∃ p n, K.run m = some (p, n) ∧ n b = m b := by
  induction K generalizing m with
  | ret p => exact ⟨p, m, rfl, rfl⟩
  | null => exact h.elim
  | read x k ih => exact ih _ (h _) m
  | write x v k ih =>
    obtain ⟨p, n, hrun, hb⟩ := ih h.2 (Function.update m x v)
    exact ⟨p, n, hrun, hb.trans (Function.update_of_ne h.1.symm v m)⟩

end Run
end Code

/-! ## Programs -/

/-- What a thread does outside the lock, and where it is then. -/
inductive Task (L : Type*) (V : L → Type*) (P : Type*) where
  | skip (p : P)
  | read (x : L) (k : V x → P)
  | write (x : L) (v : V x) (p : P)

/-- What a thread at `p` may do: a task, which may depend on and change the calls so far, or a section. -/
structure Program (A L : Type*) (V : L → Type*) (P G : Type*) where
  outer : A → P → G → Option (Task L V P × G)
  enter : A → P → Option (Code L V P)

/-- The memory, the threads between their steps, the calls so far, and whether a null pointer was used. -/
structure Sys (T L : Type*) (V : L → Type*) (P G : Type*) where
  mem : ∀ x, V x
  pc : T → P
  calls : G
  crashed : Bool

/-- A thread is in no section, before its section or behind it. -/
inductive Stage (A : Type*) where
  | out
  | called (a : A)
  | done

/-- What a step shows: a task, with the places before and after it, the call of `spin_lock`, or the end of a section. -/
inductive Label (T A P : Type*) where
  | task (t : T) (a : A) (p p' : P)
  | call (t : T) (a : A) (p : P)
  | ret (t : T) (p : P)

structure Coarse (T A L : Type*) (V : L → Type*) (P G : Type*) where
  sys : Sys T L V P G
  stage : T → Stage A

section Steps
variable [DecidableEq T] [DecidableEq L]

def Task.run : Task L V P → (∀ x, V x) → P × ∀ x, V x
  | .skip p, m => (p, m)
  | .read x k, m => (k (m x), m)
  | .write x v p, m => (p, Function.update m x v)

def Sys.doTask (s : Sys T L V P G) (t : T) (task : Task L V P) (g : G) : Sys T L V P G :=
  { s with mem := (task.run s.mem).2, pc := Function.update s.pc t (task.run s.mem).1, calls := g }

/-- Thread `t` has run the section. -/
def Sys.doCode (s : Sys T L V P G) (t : T) (K : Code L V P) : Sys T L V P G :=
  match K.run s.mem with
  | none => { s with crashed := true }
  | some (p, m) => { s with mem := m, pc := Function.update s.pc t p }

/-- A task that the calls so far allow, the call of `spin_lock`, a whole section, or its end. -/
inductive Coarse.Step (prog : Program A L V P G) (ok : A → G → Prop) (s : Coarse T A L V P G) :
    List (Label T A P) → Coarse T A L V P G → Prop
  | task {t : T} {a : A} {task : Task L V P} {g : G} (hstage : s.stage t = .out) (hok : ok a s.sys.calls)
      (htask : prog.outer a (s.sys.pc t) s.sys.calls = some (task, g)) :
      Step prog ok s [.task t a (s.sys.pc t) (task.run s.sys.mem).1] { s with sys := s.sys.doTask t task g }
  | call {t : T} {a : A} {K : Code L V P} (hstage : s.stage t = .out) (henter : prog.enter a (s.sys.pc t) = some K) :
      Step prog ok s [.call t a (s.sys.pc t)] { s with stage := Function.update s.stage t (.called a) }
  | take {t : T} {a : A} {K : Code L V P} (hstage : s.stage t = .called a)
      (henter : prog.enter a (s.sys.pc t) = some K) :
      Step prog ok s [] ⟨s.sys.doCode t K, Function.update s.stage t .done⟩
  | ret {t : T} (hstage : s.stage t = .done) :
      Step prog ok s [.ret t (s.sys.pc t)] { s with stage := Function.update s.stage t .out }

inductive Coarse.Steps (prog : Program A L V P G) (ok : A → G → Prop) :
    Coarse T A L V P G → List (Label T A P) → Coarse T A L V P G → Prop
  | refl (s : Coarse T A L V P G) : Steps prog ok s [] s
  | head {s s' s'' : Coarse T A L V P G} {labels labels' : List (Label T A P)} (alive : s.sys.crashed = false)
      (step : Step prog ok s labels s') (steps : Steps prog ok s' labels' s'') : Steps prog ok s (labels ++ labels') s''

variable {prog : Program A L V P G} {ok : A → G → Prop} {s s' s'' : Coarse T A L V P G} {labels labels' : List (Label T A P)}

theorem Coarse.Step.returns {t : T} {p : P} (hstage : s.stage t = .done) (hpc : s.sys.pc t = p) :
    Coarse.Step prog ok s [.ret t p] { s with stage := Function.update s.stage t .out } :=
  hpc ▸ .ret hstage

theorem Coarse.Steps.one (alive : s.sys.crashed = false) (h : Coarse.Step prog ok s labels s') :
    Coarse.Steps prog ok s labels s' := by
  have hsteps := Coarse.Steps.head alive h (.refl s')
  rwa [List.append_nil] at hsteps

theorem Coarse.Steps.trans (h : Coarse.Steps prog ok s labels s') (h' : Coarse.Steps prog ok s' labels' s'') :
    Coarse.Steps prog ok s (labels ++ labels') s'' := by
  induction h with
  | refl s => exact h'
  | head alive step _ ih =>
    rw [List.append_assoc]
    exact .head alive step (ih h')

end Steps

/-! ## The lock -/

/-- Where a thread is: outside, before the exchange of `spin_lock`, in the loop that waits, or behind the lock. -/
inductive Phase (L : Type*) (V : L → Type*) (P : Type*) where
  | out (p : P)
  | xchg (K : Code L V P)
  | spin (K : Code L V P)
  | inside (K : Code L V P)

/-- The memory with the byte of the lock, and the threads. -/
structure Fine (T L : Type*) (V : L → Type*) (P G : Type*) where
  mem : ∀ x, V x
  lock : UInt8
  phase : T → Phase L V P
  calls : G
  crashed : Bool

def BUSY : UInt8 := 1

/-- The next step: a task, the call of `spin_lock`, or the next access of the thread. -/
inductive Fine.Act (T A : Type*) where
  | outer (t : T) (a : A)
  | enter (t : T) (a : A)
  | access (t : T)

namespace Fine
section Steps
variable [DecidableEq T] [DecidableEq L]

/-- The thread is somewhere else now. -/
def goto (f : Fine T L V P G) (t : T) (phase : Phase L V P) : Fine T L V P G :=
  { f with phase := Function.update f.phase t phase }

def access (f : Fine T L V P G) (t : T) : Option (Fine T L V P G) :=
  match f.phase t with
  | .out _ => none
  | .xchg K => some ({ f with lock := BUSY }.goto t (if f.lock = 0 then .inside K else .spin K))
  | .spin K => some (if f.lock = 0 then f.goto t (.xchg K) else f)
  | .inside (.ret p) => some ({ f with lock := 0 }.goto t (.out p))
  | .inside .null => some { f with crashed := true }
  | .inside (.read x k) => some (f.goto t (.inside (k (f.mem x))))
  | .inside (.write x v k) => some ({ f with mem := Function.update f.mem x v }.goto t (.inside k))

def outer (prog : Program A L V P G) (f : Fine T L V P G) (t : T) (a : A) : Option (Fine T L V P G) :=
  match f.phase t with
  | .out p => (prog.outer a p f.calls).map fun r =>
      { f with mem := (r.1.run f.mem).2, calls := r.2 }.goto t (.out (r.1.run f.mem).1)
  | _ => none

def enter (prog : Program A L V P G) (f : Fine T L V P G) (t : T) (a : A) : Option (Fine T L V P G) :=
  match f.phase t with
  | .out p => (prog.enter a p).map fun K => f.goto t (.xchg K)
  | _ => none

def step (prog : Program A L V P G) (f : Fine T L V P G) (act : Act T A) : Option (Fine T L V P G) :=
  if f.crashed then none
  else match act with
    | .outer t a => f.outer prog t a
    | .enter t a => f.enter prog t a
    | .access t => f.access t

def run (prog : Program A L V P G) : Fine T L V P G → List (Act T A) → Option (Fine T L V P G)
  | f, [] => some f
  | f, act :: acts => (step prog f act).bind fun f => run prog f acts

def label (prog : Program A L V P G) (f : Fine T L V P G) : Act T A → List (Label T A P)
  | .outer t a => match f.phase t with
    | .out p => (prog.outer a p f.calls).toList.map fun r => .task t a p (r.1.run f.mem).1
    | _ => []
  | .enter t a => match f.phase t with
    | .out p => [.call t a p]
    | _ => []
  | .access t => match f.phase t with
    | .inside (.ret p) => [.ret t p]
    | _ => []

/-- What a run shows. -/
def trace (prog : Program A L V P G) : Fine T L V P G → List (Act T A) → List (Label T A P)
  | _, [] => []
  | f, act :: acts => f.label prog act ++ (step prog f act).elim [] fun f => trace prog f acts

/-- The calls so far allow every task of the run. -/
def Keeps (prog : Program A L V P G) (ok : A → G → Prop) : Fine T L V P G → List (Act T A) → Prop
  | _, [] => True
  | f, act :: acts => (∀ t a, act = .outer t a → ok a f.calls) ∧ ∀ f', step prog f act = some f' → Keeps prog ok f' acts

variable {prog : Program A L V P G} {ok : A → G → Prop} {f f' f'' : Fine T L V P G} {t u : T} {K : Code L V P}

theorem keeps_cons {act : Act T A} {acts : List (Act T A)} (hstep : step prog f act = some f')
    (hok : ∀ t a, act = .outer t a → ok a f.calls) (h : Keeps prog ok f' acts) : Keeps prog ok f (act :: acts) := by
  refine ⟨hok, fun f'' hf'' => ?_⟩
  obtain rfl := Option.some.inj (hstep.symm.trans hf'')
  exact h

theorem keeps_of_forall {acts : List (Act T A)} (h : ∀ t a, .outer t a ∈ acts → ∀ g, ok a g) : Keeps prog ok f acts := by
  induction acts generalizing f with
  | nil => trivial
  | cons act acts ih =>
    refine ⟨fun t a ha => h t a (ha ▸ List.mem_cons_self) f.calls, fun f' _ => ih fun t a ha => ?_⟩
    exact h t a (List.mem_cons_of_mem act ha)

omit [DecidableEq T] in
theorem outer_of_label {a : A} {p p' : P} {act : Act T A} (h : .task t a p p' ∈ f.label prog act) : act = .outer t a := by
  cases act with
  | outer u a' =>
    dsimp only [label] at h
    split at h
    · obtain ⟨r, -, hr⟩ := List.mem_map.mp h
      cases hr
      rfl
    · cases h
  | enter u a' =>
    dsimp only [label] at h
    split at h
    · cases List.mem_singleton.mp h
    · cases h
  | access u =>
    dsimp only [label] at h
    split at h
    · cases List.mem_singleton.mp h
    · cases h

theorem outer_of_trace {a : A} {p p' : P} {acts : List (Act T A)} (h : .task t a p p' ∈ f.trace prog acts) :
    .outer t a ∈ acts := by
  induction acts generalizing f with
  | nil => cases h
  | cons act acts ih =>
    rcases List.mem_append.mp h with h | h
    · exact outer_of_label h ▸ List.mem_cons_self
    · cases hstep : step prog f act with
      | none =>
        rw [hstep] at h
        cases h
      | some f' =>
        rw [hstep] at h
        exact List.mem_cons_of_mem act (ih h)

omit [DecidableEq L] in
theorem goto_other {phase : Phase L V P} (htu : t ≠ u) : (f.goto u phase).phase t = f.phase t := by
  simp [goto, htu]

omit [DecidableEq L] in
theorem goto_self {phase : Phase L V P} : (f.goto u phase).phase u = phase := by
  simp [goto]

omit [DecidableEq L] in
theorem goto_inside {phase : Phase L V P} (hphase : ∀ K, phase ≠ .inside K) {K : Code L V P}
    (h : (f.goto u phase).phase t = .inside K) : f.phase t = .inside K := by
  by_cases htu : t = u
  · subst htu
    rw [goto_self] at h
    exact absurd h (hphase K)
  · rwa [goto_other htu] at h

theorem run_append {acts acts' : List (Act T A)} (h : run prog f acts = some f') (h' : run prog f' acts' = some f'') :
    run prog f (acts ++ acts') = some f'' := by
  induction acts generalizing f with
  | nil =>
    obtain rfl := Option.some.inj h
    exact h'
  | cons act acts ih =>
    obtain ⟨f₁, hstep, hrun⟩ := Option.bind_eq_some_iff.mp h
    rw [List.cons_append, run, hstep, Option.bind_some]
    exact ih hrun

theorem run_of_crashed (hcrashed : f.crashed = true) {acts : List (Act T A)} (hrun : run prog f acts = some f') :
    acts = [] ∧ f' = f := by
  cases acts with
  | nil => exact ⟨rfl, (Option.some.inj hrun).symm⟩
  | cons act acts => simp [run, step, hcrashed] at hrun

/-! ### Who has it -/

structure Open (f : Fine T L V P G) : Prop where
  lock : f.lock = 0
  none : ∀ t K, f.phase t ≠ .inside K

structure Held (f : Fine T L V P G) (t : T) (K : Code L V P) : Prop where
  lock : f.lock = BUSY
  phase : f.phase t = .inside K
  alone : ∀ u K', f.phase u = .inside K' → u = t

def Locked (f : Fine T L V P G) : Prop := f.Open ∨ ∃ t K, f.Held t K

omit [DecidableEq T] [DecidableEq L] in
theorem Open.congr (h : f.Open) (hlock : f'.lock = f.lock) (hphase : f'.phase = f.phase) : f'.Open :=
  ⟨hlock.trans h.lock, fun t K ht => h.none t K (hphase ▸ ht)⟩

omit [DecidableEq T] [DecidableEq L] in
theorem Held.congr (h : f.Held t K) (hlock : f'.lock = f.lock) (hphase : f'.phase = f.phase) : f'.Held t K :=
  ⟨hlock.trans h.lock, (congrFun hphase t).trans h.phase, fun u K' hu => h.alone u K' (hphase ▸ hu)⟩

omit [DecidableEq T] [DecidableEq L] in
theorem Locked.congr (h : Locked f) (hlock : f'.lock = f.lock) (hphase : f'.phase = f.phase) : Locked f' :=
  h.imp (fun hopen => hopen.congr hlock hphase) fun ⟨t, K, hheld⟩ => ⟨t, K, hheld.congr hlock hphase⟩

omit [DecidableEq T] [DecidableEq L] in
theorem Locked.held (h : Locked f) (hphase : f.phase t = .inside K) : f.Held t K := by
  rcases h with hopen | ⟨u, K', hheld⟩
  · exact absurd hphase (hopen.none t K)
  · obtain rfl := hheld.alone t K hphase
    obtain rfl := Phase.inside.inj (hheld.phase.symm.trans hphase)
    exact hheld

omit [DecidableEq T] [DecidableEq L] in
/-- At most one thread is behind the lock. -/
theorem Locked.alone (h : Locked f) {K' : Code L V P} (ht : f.phase t = .inside K) (hu : f.phase u = .inside K') : t = u :=
  ((h.held ht).alone u K' hu).symm

omit [DecidableEq L] in
theorem Open.goto (h : f.Open) {phase : Phase L V P} (hphase : ∀ K, phase ≠ .inside K) : (f.goto t phase).Open :=
  ⟨h.lock, fun u K hu => h.none u K (goto_inside hphase hu)⟩

omit [DecidableEq L] in
theorem Held.goto (h : f.Held t K) (hut : u ≠ t) {phase : Phase L V P} (hphase : ∀ K, phase ≠ .inside K) :
    (f.goto u phase).Held t K :=
  ⟨h.lock, (goto_other hut.symm).trans h.phase, fun v K' hv => h.alone v K' (goto_inside hphase hv)⟩

omit [DecidableEq L] in
theorem Locked.goto (h : Locked f) (hout : ∀ K, f.phase t ≠ .inside K) {phase : Phase L V P}
    (hphase : ∀ K, phase ≠ .inside K) : Locked (f.goto t phase) := by
  rcases h with hopen | ⟨u, K, hheld⟩
  · exact Or.inl (hopen.goto hphase)
  · have htu : t ≠ u := by
      rintro rfl
      exact hout K hheld.phase
    exact Or.inr ⟨u, K, hheld.goto htu hphase⟩

omit [DecidableEq L] in
theorem Open.take (h : f.Open) : ({ f with lock := BUSY }.goto t (.inside K)).Held t K := by
  refine ⟨rfl, goto_self, fun u K' hu => ?_⟩
  by_contra hut
  rw [goto_other hut] at hu
  exact h.none u K' hu

omit [DecidableEq L] in
theorem Held.advance (h : f.Held t K) (m : ∀ x, V x) (K' : Code L V P) :
    ({ f with mem := m }.goto t (.inside K')).Held t K' := by
  refine ⟨h.lock, goto_self, fun u K'' hu => ?_⟩
  by_contra hut
  rw [goto_other hut] at hu
  exact hut (h.alone u K'' hu)

omit [DecidableEq L] in
theorem Held.unlock (h : f.Held t K) (p : P) : ({ f with lock := 0 }.goto t (.out p)).Open := by
  refine ⟨rfl, fun u K' hu => ?_⟩
  by_cases hut : u = t
  · subst hut
    rw [goto_self] at hu
    cases hu
  · rw [goto_other hut] at hu
    exact hut (h.alone u K' hu)

omit [DecidableEq L] in
theorem Held.exchange (h : f.Held t K) {K' : Code L V P} :
    { f with lock := BUSY }.goto u (if f.lock = 0 then .inside K' else .spin K') = f.goto u (.spin K') := by
  have hbusy : f.lock ≠ 0 := by
    rw [h.lock]
    decide
  rw [if_neg hbusy, ← h.lock]

omit [DecidableEq L] in
theorem Locked.exchange (h : Locked f) (hphase : f.phase t = .xchg K) :
    Locked ({ f with lock := BUSY }.goto t (if f.lock = 0 then .inside K else .spin K)) := by
  rcases h with hopen | ⟨u, K', hheld⟩
  · rw [if_pos hopen.lock]
    exact Or.inr ⟨t, K, hopen.take⟩
  · rw [hheld.exchange]
    exact Locked.goto (Or.inr ⟨u, K', hheld⟩) (by simp [hphase]) nofun

theorem Locked.access (h : Locked f) (hstep : f.access t = some f') : Locked f' := by
  unfold Fine.access at hstep
  split at hstep
  · cases hstep
  · obtain rfl := Option.some.inj hstep
    exact h.exchange ‹_›
  · obtain rfl := Option.some.inj hstep
    split_ifs
    · exact h.goto (by simp [‹f.phase t = _›]) nofun
    · exact h
  · obtain rfl := Option.some.inj hstep
    exact Or.inl ((h.held ‹_›).unlock _)
  · obtain rfl := Option.some.inj hstep
    exact h.congr rfl rfl
  · obtain rfl := Option.some.inj hstep
    exact Or.inr ⟨t, _, (h.held ‹_›).advance f.mem _⟩
  · obtain rfl := Option.some.inj hstep
    exact Or.inr ⟨t, _, (h.held ‹_›).advance _ _⟩

theorem Locked.step (h : Locked f) {act : Act T A} (hstep : Fine.step prog f act = some f') : Locked f' := by
  unfold Fine.step at hstep
  split_ifs at hstep
  cases act with
  | outer t a =>
    dsimp only at hstep
    unfold Fine.outer at hstep
    split at hstep
    · obtain ⟨r, -, rfl⟩ := Option.map_eq_some_iff.mp hstep
      have hlocked : Locked { f with mem := (r.1.run f.mem).2, calls := r.2 } := h.congr rfl rfl
      exact hlocked.goto (by simp [‹f.phase t = _›]) nofun
    · cases hstep
  | enter t a =>
    dsimp only at hstep
    unfold Fine.enter at hstep
    split at hstep
    · obtain ⟨K, -, rfl⟩ := Option.map_eq_some_iff.mp hstep
      exact h.goto (by simp [‹f.phase t = _›]) nofun
    · cases hstep
  | access t => exact h.access hstep

/-- **Mutual exclusion**, whatever the program. -/
theorem Locked.run (h : Locked f) {acts : List (Act T A)} (hrun : Fine.run prog f acts = some f') : Locked f' := by
  induction acts generalizing f with
  | nil =>
    obtain rfl := Option.some.inj hrun
    exact h
  | cons act acts ih =>
    obtain ⟨f₁, hstep, hrest⟩ := Option.bind_eq_some_iff.mp hrun
    exact ih (h.step hstep) hrest

/-! ### Progress -/

variable (prog) in
/-- The thread that has the lock comes to the end of its section. -/
theorem run_inside (halive : f.crashed = false) (h : f.phase t = .inside K) :
    ∃ (n : Nat) (f' : Fine T L V P G), run prog f (List.replicate n (.access t)) = some f' ∧
      (f'.crashed = true ∨ f'.crashed = false ∧ f'.lock = 0 ∧ ∀ u ≠ t, f'.phase u = f.phase u) := by
  induction K generalizing f with
  | ret p =>
    refine ⟨1, { f with lock := 0 }.goto t (.out p), ?_, Or.inr ⟨halive, rfl, fun u hu => goto_other hu⟩⟩
    simp [run, step, access, halive, h]
  | null =>
    refine ⟨1, { f with crashed := true }, ?_, Or.inl rfl⟩
    simp [run, step, access, halive, h]
  | read x k ih =>
    obtain ⟨n, f', hrun, hend⟩ := ih (f.mem x) (f := f.goto t (.inside (k (f.mem x)))) halive goto_self
    refine ⟨n + 1, f', ?_, hend.imp_right fun ⟨h₁, h₂, h₃⟩ => ⟨h₁, h₂, fun u hu => (h₃ u hu).trans (goto_other hu)⟩⟩
    rw [List.replicate_succ, run]
    simpa [step, access, halive, h] using hrun
  | write x v k ih =>
    obtain ⟨n, f', hrun, hend⟩ :=
      ih (f := { f with mem := Function.update f.mem x v }.goto t (.inside k)) halive goto_self
    refine ⟨n + 1, f', ?_, hend.imp_right fun ⟨h₁, h₂, h₃⟩ => ⟨h₁, h₂, fun u hu => (h₃ u hu).trans (goto_other hu)⟩⟩
    rw [List.replicate_succ, run]
    simpa [step, access, halive, h] using hrun

variable (prog) in
/-- While the lock is free a thread that waits can take it. -/
theorem run_waiting (halive : f.crashed = false) (hlock : f.lock = 0) (h : f.phase t = .xchg K ∨ f.phase t = .spin K) :
    ∃ (n : Nat) (f' : Fine T L V P G), run prog f (List.replicate n (.access t)) = some f' ∧ f'.phase t = .inside K := by
  have htake : ∀ {f : Fine T L V P G}, f.crashed = false → f.lock = 0 → f.phase t = .xchg K →
      step prog f (.access t) = some ({ f with lock := BUSY }.goto t (.inside K)) := by
    intro f halive hlock h
    simp [step, access, halive, hlock, h]
  rcases h with h | h
  · refine ⟨1, { f with lock := BUSY }.goto t (.inside K), ?_, goto_self⟩
    rw [List.replicate_one, run, htake halive hlock h]
    rfl
  · refine ⟨2, { f.goto t (.xchg K) with lock := BUSY }.goto t (.inside K), ?_, goto_self⟩
    have hspin : step prog f (.access t) = some (f.goto t (.xchg K)) := by
      simp [step, access, halive, hlock, h]
    rw [List.replicate_succ, run, hspin, Option.bind_some, List.replicate_one, run,
      htake (f := f.goto t (.xchg K)) halive hlock goto_self]
    rfl

/-- **No deadlock**: the accesses of the thread that has the lock and those of one that waits bring the second behind the
lock, if no null pointer is used. -/
theorem Locked.progress (h : Locked f) (halive : f.crashed = false) (ht : f.phase t = .xchg K ∨ f.phase t = .spin K) :
    ∃ (us : List T) (f' : Fine T L V P G), Fine.run prog f (us.map .access) = some f' ∧
      (∀ u ∈ us, u = t ∨ ∃ K', f.phase u = .inside K') ∧ (f'.crashed = true ∨ f'.phase t = .inside K) := by
  rcases h with hopen | ⟨u, K', hheld⟩
  · obtain ⟨n, f', hrun, hin⟩ := run_waiting prog halive hopen.lock ht
    refine ⟨List.replicate n t, f', by rwa [List.map_replicate], fun u hu => ?_, Or.inr hin⟩
    exact Or.inl (List.eq_of_mem_replicate hu)
  · have htu : t ≠ u := by
      rintro rfl
      simp [hheld.phase] at ht
    have hholder : ∀ n, ∀ v ∈ List.replicate n u, v = t ∨ ∃ K', f.phase v = .inside K' := fun n v hv =>
      Or.inr ⟨K', List.eq_of_mem_replicate hv ▸ hheld.phase⟩
    obtain ⟨n, f₁, hrun₁, hcrashed | ⟨halive, hlock, hother⟩⟩ := run_inside prog halive hheld.phase
    · exact ⟨List.replicate n u, f₁, by rwa [List.map_replicate], hholder n, Or.inl hcrashed⟩
    · rw [← hother t htu] at ht
      obtain ⟨n', f', hrun, hin⟩ := run_waiting prog halive hlock ht
      refine ⟨List.replicate n u ++ List.replicate n' t, f', ?_, fun v hv => ?_, Or.inr hin⟩
      · rw [List.map_append, List.map_replicate, List.map_replicate]
        exact run_append hrun₁ hrun
      · rcases List.mem_append.mp hv with hv | hv
        · exact hholder n v hv
        · exact Or.inl (List.eq_of_mem_replicate hv)

end Steps
end Fine

/-! ## Every fine run is a run of sections -/

def Phase.At (prog : Program A L V P G) (p : P) (stage : Stage A) : Phase L V P → Prop
  | .out q => p = q ∧ stage = .out
  | .xchg K => ∃ a, stage = .called a ∧ prog.enter a p = some K
  | .spin K => ∃ a, stage = .called a ∧ prog.enter a p = some K
  | .inside _ => True

section Simulation
variable [DecidableEq T] [DecidableEq L]

/-- What the threads keep to while `I` holds. `D s t` are the locations that a section of `t` leaves to the others. -/
structure Discipline (prog : Program A L V P G) (ok : A → G → Prop) (b : L) (I : Sys T L V P G → Prop)
    (D : Sys T L V P G → T → Set L) : Prop where
  once : ∀ {a p K}, prog.enter a p = some K → K.Once b
  reads : ∀ {a p g x k g'}, prog.outer a p g = some (.read x k, g') → x = b
  writes : ∀ {s u a x v p g'}, I s → prog.outer a (s.pc u) s.calls = some (.write x v p, g') → x ≠ b ∧ ∀ t ≠ u, x ∈ D s t
  avoids : ∀ {s t a K}, I s → prog.enter a (s.pc t) = some K → K.Avoids (D s t) s.mem
  alive : ∀ {s}, I s → s.crashed = false
  task : ∀ {s u a task g}, I s → ok a s.calls → prog.outer a (s.pc u) s.calls = some (task, g) → I (s.doTask u task g)
  code : ∀ {s t a K}, I s → prog.enter a (s.pc t) = some K → (s.doCode t K).crashed = false → I (s.doCode t K)
  task_subset : ∀ {s u a task g t}, I s → ok a s.calls → prog.outer a (s.pc u) s.calls = some (task, g) → t ≠ u →
    D (s.doTask u task g) t ⊆ D s t
  code_subset : ∀ {s t a K}, I s → prog.enter a (s.pc t) = some K → D (s.doCode t K) t ⊆ D s t

/-- The section of `t` has not taken place, or it has: `K` is the rest of it, and `m` the memory in which it goes on. -/
inductive Pending (prog : Program A L V P G) (b : L) (s : Coarse T A L V P G) (t : T) (K : Code L V P) (m : ∀ x, V x) :
    Prop
  | before (once : K.Once b) (a : A) (K₀ : Code L V P) (stage : s.stage t = .called a)
      (enter : prog.enter a (s.sys.pc t) = some K₀) (run : K.run m = K₀.run s.sys.mem)
  | after (late : K.Late b) (stage : s.stage t = .done) (run : K.run m = some (s.sys.pc t, s.sys.mem))

/-- Thread `t` has the lock and the rest of its section to run. -/
structure Hold (prog : Program A L V P G) (b : L) (D : Sys T L V P G → T → Set L) (f : Fine T L V P G)
    (s : Coarse T A L V P G) (t : T) (K : Code L V P) : Prop where
  held : f.Held t K
  shown : f.mem b = s.sys.mem b
  avoids : K.Avoids (D s.sys t) f.mem
  pending : Pending prog b s t K f.mem

/-- The fine state and the state between sections. -/
structure Sim (prog : Program A L V P G) (b : L) (I : Sys T L V P G → Prop) (D : Sys T L V P G → T → Set L)
    (f : Fine T L V P G) (s : Coarse T A L V P G) : Prop where
  inv : I s.sys
  alive : f.crashed = false
  calls : f.calls = s.sys.calls
  phase : ∀ t, (f.phase t).At prog (s.sys.pc t) (s.stage t)
  lock : f.Open ∧ f.mem = s.sys.mem ∨ ∃ t K, Hold prog b D f s t K

/-- After a step: the states belong together, or a null pointer was used in both. -/
def After (prog : Program A L V P G) (b : L) (I : Sys T L V P G → Prop) (D : Sys T L V P G → T → Set L)
    (f : Fine T L V P G) (s : Coarse T A L V P G) : Prop :=
  Sim prog b I D f s ∨ f.crashed = true ∧ s.sys.crashed = true ∧ f.calls = s.sys.calls

/-- The steps show the labels and lead to a state that belongs to `f`. -/
def Follows (prog : Program A L V P G) (ok : A → G → Prop) (b : L) (I : Sys T L V P G → Prop)
    (D : Sys T L V P G → T → Set L) (s : Coarse T A L V P G) (labels : List (Label T A P)) (f : Fine T L V P G) : Prop :=
  ∃ s', Coarse.Steps prog ok s labels s' ∧ After prog b I D f s'

variable {prog : Program A L V P G} {ok : A → G → Prop} {b : L} {I : Sys T L V P G → Prop}
  {D : Sys T L V P G → T → Set L} {f f' : Fine T L V P G} {s s' : Coarse T A L V P G} {t u : T} {K : Code L V P}

theorem doCode_some {s : Sys T L V P G} {p : P} {m : ∀ x, V x} (h : K.run s.mem = some (p, m)) :
    s.doCode t K = { s with mem := m, pc := Function.update s.pc t p } := by
  simp [Sys.doCode, h]

theorem doCode_none {s : Sys T L V P G} (h : K.run s.mem = none) : s.doCode t K = { s with crashed := true } := by
  simp [Sys.doCode, h]

omit [DecidableEq T] in
theorem Pending.congr {m : ∀ x, V x} (h : Pending prog b s t K m) (hstage : s'.stage t = s.stage t)
    (hpc : s'.sys.pc t = s.sys.pc t) (hmem : s'.sys.mem = s.sys.mem) : Pending prog b s' t K m := by
  cases h with
  | before once a K₀ stage enter run =>
    exact .before once a K₀ (hstage.trans stage) (by rw [hpc, enter]) (by rw [hmem, run])
  | after late stage run => exact .after late (hstage.trans stage) (by rw [hpc, hmem, run])

theorem Hold.goto (h : Hold prog b D f s t K) (hut : u ≠ t) {phase : Phase L V P} (hphase : ∀ K, phase ≠ .inside K) :
    Hold prog b D (f.goto u phase) s t K :=
  ⟨h.held.goto hut hphase, h.shown, h.avoids, h.pending⟩

theorem Hold.advance (h : Hold prog b D f s t K) {m : ∀ x, V x} {K' : Code L V P} (shown : m b = s'.sys.mem b)
    (avoids : K'.Avoids (D s'.sys t) m) (pending : Pending prog b s' t K' m) :
    Hold prog b D ({ f with mem := m }.goto t (.inside K')) s' t K' :=
  ⟨h.held.advance m K', shown, avoids, pending⟩

omit [DecidableEq T] in
theorem Sim.hold (h : Sim prog b I D f s) (hphase : f.phase t = .inside K) : Hold prog b D f s t K := by
  rcases h.lock with ⟨hopen, -⟩ | ⟨u, K', hold⟩
  · exact absurd hphase (hopen.none t K)
  · obtain rfl := hold.held.alone t K hphase
    obtain rfl := Phase.inside.inj (hold.held.phase.symm.trans hphase)
    exact hold

omit [DecidableEq L] in
theorem at_update {pc : T → P} {stage : T → Stage A} {f : Fine T L V P G} (h : ∀ t, (f.phase t).At prog (pc t) (stage t))
    {p : P} {st : Stage A} {phase : Phase L V P} (hp : phase.At prog p st) (u : T) :
    ((f.goto t phase).phase u).At prog (Function.update pc t p u) (Function.update stage t st u) := by
  by_cases hut : u = t
  · subst hut
    rw [Fine.goto_self, Function.update_self, Function.update_self]
    exact hp
  · rw [Fine.goto_other hut, Function.update_of_ne hut, Function.update_of_ne hut]
    exact h u

omit [DecidableEq L] in
theorem at_update_pc {pc : T → P} {stage : T → Stage A} {f : Fine T L V P G}
    (h : ∀ t, (f.phase t).At prog (pc t) (stage t)) {p : P} {phase : Phase L V P} (hp : phase.At prog p (stage t)) (u : T) :
    ((f.goto t phase).phase u).At prog (Function.update pc t p u) (stage u) := by
  have hat := at_update (t := t) h hp u
  rwa [Function.update_eq_self] at hat

omit [DecidableEq L] in
theorem at_update_stage {pc : T → P} {stage : T → Stage A} {f : Fine T L V P G}
    (h : ∀ t, (f.phase t).At prog (pc t) (stage t)) {st : Stage A} {phase : Phase L V P} (hp : phase.At prog (pc t) st)
    (u : T) :
    ((f.goto t phase).phase u).At prog (pc u) (Function.update stage t st u) := by
  have hat := at_update (t := t) h hp u
  rwa [Function.update_eq_self] at hat

omit [DecidableEq L] in
theorem at_goto {pc : T → P} {stage : T → Stage A} {f : Fine T L V P G} (h : ∀ t, (f.phase t).At prog (pc t) (stage t))
    {phase : Phase L V P} (hp : phase.At prog (pc t) (stage t)) (u : T) :
    ((f.goto t phase).phase u).At prog (pc u) (stage u) := by
  have hat := at_update_pc (t := t) h hp u
  rwa [Function.update_eq_self] at hat

section Moves
variable (hd : Discipline prog ok b I D)
include hd

/-- A task of another thread sees the same in both states. -/
theorem Discipline.task_fst {a : A} {p : P} {g g' : G} {task : Task L V P} (h : prog.outer a p g = some (task, g'))
    {m m' : ∀ x, V x} (hb : m b = m' b) : (task.run m).1 = (task.run m').1 := by
  cases task with
  | skip p => rfl
  | read x k =>
    obtain rfl := hd.reads h
    exact congrArg k hb
  | write x v p => rfl

/-- A task of another thread in the middle of a section. -/
theorem Discipline.hold_task (hI : I s.sys) (h : Hold prog b D f s t K) (hut : u ≠ t) {a : A} {task : Task L V P} {g : G}
    (hok : ok a s.sys.calls) (htask : prog.outer a (s.sys.pc u) s.sys.calls = some (task, g)) :
    Hold prog b D { f with mem := (task.run f.mem).2, calls := g } { s with sys := s.sys.doTask u task g } t K := by
  have hmono : D (s.sys.doTask u task g) t ⊆ D s.sys t := hd.task_subset hI hok htask hut.symm
  have hpc : (s.sys.doTask u task g).pc t = s.sys.pc t := Function.update_of_ne hut.symm _ _
  obtain ⟨hheld, hshown, havoids, hpending⟩ := h
  cases task with
  | skip p => exact ⟨hheld.congr rfl rfl, hshown, havoids.mono hmono, hpending.congr rfl hpc rfl⟩
  | read x k => exact ⟨hheld.congr rfl rfl, hshown, havoids.mono hmono, hpending.congr rfl hpc rfl⟩
  | write x v p =>
    obtain ⟨hxb, hxD⟩ := hd.writes hI htask
    have hx := hxD t hut.symm
    classical
    obtain ⟨havoids', hrun'⟩ := havoids.update hx v
    refine ⟨hheld.congr rfl rfl, ?_, havoids'.mono hmono, ?_⟩
    · change Function.update f.mem x v b = Function.update s.sys.mem x v b
      rw [Function.update_of_ne hxb.symm, Function.update_of_ne hxb.symm, hshown]
    · cases hpending with
      | before once a K₀ stage enter run =>
        refine .before once a K₀ stage (by rw [hpc, enter]) (hrun'.trans ?_)
        rw [run]
        exact ((hd.avoids hI enter).update hx v).2.symm
      | after late stage run =>
        refine .after late stage (hrun'.trans ?_)
        rw [run, hpc]
        rfl

theorem Sim.task (h : Sim prog b I D f s) {p : P} (hphase : f.phase t = .out p) {a : A} (hok : ok a f.calls)
    {task : Task L V P} {g : G} (htask : prog.outer a p f.calls = some (task, g)) :
    Follows prog ok b I D s [.task t a p (task.run f.mem).1]
      ({ f with mem := (task.run f.mem).2, calls := g }.goto t (.out (task.run f.mem).1)) := by
  obtain ⟨rfl, hstage⟩ : s.sys.pc t = p ∧ s.stage t = .out := by
    have hat := h.phase t
    rwa [hphase] at hat
  rw [h.calls] at htask hok
  have hfst : (task.run s.sys.mem).1 = (task.run f.mem).1 := by
    rcases h.lock with ⟨-, hmem⟩ | ⟨u, K, hold⟩
    · rw [hmem]
    · exact hd.task_fst htask hold.shown.symm
  have hstep := Coarse.Step.task hstage hok htask
  rw [hfst] at hstep
  refine ⟨_, .one (hd.alive h.inv) hstep, Or.inl ⟨hd.task h.inv hok htask, h.alive, rfl, ?_, ?_⟩⟩
  · exact at_update_pc (f := { f with mem := (task.run f.mem).2, calls := g }) h.phase ⟨hfst, hstage⟩
  · rcases h.lock with ⟨hopen, hmem⟩ | ⟨u, K, hold⟩
    · have hopen' : Fine.Open { f with mem := (task.run f.mem).2, calls := g } := hopen.congr rfl rfl
      exact Or.inl ⟨hopen'.goto nofun, congrArg (fun m => (task.run m).2) hmem⟩
    · have htu : t ≠ u := by
        rintro rfl
        cases hphase.symm.trans hold.held.phase
      exact Or.inr ⟨u, K, (hd.hold_task h.inv hold htu hok htask).goto htu nofun⟩

omit hd in
theorem Sim.move (h : Sim prog b I D f s) (hout : ∀ K, f.phase t ≠ .inside K) {phase : Phase L V P}
    (hphase : ∀ K, phase ≠ .inside K) (hat : phase.At prog (s.sys.pc t) (s.stage t)) :
    Sim prog b I D (f.goto t phase) s := by
  refine ⟨h.inv, h.alive, h.calls, at_goto h.phase hat, ?_⟩
  rcases h.lock with ⟨hopen, hmem⟩ | ⟨u, K, hold⟩
  · exact Or.inl ⟨hopen.goto hphase, hmem⟩
  · have htu : t ≠ u := by
      rintro rfl
      exact hout K hold.held.phase
    exact Or.inr ⟨u, K, hold.goto htu hphase⟩

theorem Sim.call (h : Sim prog b I D f s) {p : P} (hphase : f.phase t = .out p) {a : A} (henter : prog.enter a p = some K) :
    Follows prog ok b I D s [.call t a p] (f.goto t (.xchg K)) := by
  obtain ⟨rfl, hstage⟩ : s.sys.pc t = p ∧ s.stage t = .out := by
    have hat := h.phase t
    rwa [hphase] at hat
  refine ⟨_, .one (hd.alive h.inv) (.call hstage henter), Or.inl ⟨h.inv, h.alive, h.calls, ?_, ?_⟩⟩
  · exact at_update_stage h.phase ⟨a, rfl, henter⟩
  · rcases h.lock with ⟨hopen, hmem⟩ | ⟨u, K', hold⟩
    · exact Or.inl ⟨hopen.goto nofun, hmem⟩
    · have htu : t ≠ u := by
        rintro rfl
        cases hphase.symm.trans hold.held.phase
      have hheld : (f.goto t (.xchg K)).Held u K' := hold.held.goto htu nofun
      refine Or.inr ⟨u, K', hheld, hold.shown, hold.avoids, hold.pending.congr ?_ rfl rfl⟩
      exact Function.update_of_ne htu.symm _ _

theorem Sim.exchange (h : Sim prog b I D f s) (hphase : f.phase t = .xchg K) :
    Sim prog b I D ({ f with lock := BUSY }.goto t (if f.lock = 0 then .inside K else .spin K)) s := by
  have hat := h.phase t
  rw [hphase] at hat
  rcases h.lock with ⟨hopen, hmem⟩ | ⟨u, K', hold⟩
  · obtain ⟨a, hstage, henter⟩ := hat
    rw [if_pos hopen.lock]
    refine ⟨h.inv, h.alive, h.calls, at_goto (f := { f with lock := BUSY }) h.phase trivial, Or.inr ⟨t, K, ?_⟩⟩
    refine ⟨hopen.take, congrFun hmem b, ?_, .before (hd.once henter) a K hstage henter (congrArg K.run hmem)⟩
    change K.Avoids (D s.sys t) f.mem
    rw [hmem]
    exact hd.avoids h.inv henter
  · rw [hold.held.exchange]
    exact h.move (by simp [hphase]) nofun hat

omit hd in
theorem Sim.waits (h : Sim prog b I D f s) (hphase : f.phase t = .spin K) : Sim prog b I D (f.goto t (.xchg K)) s := by
  have hat := h.phase t
  rw [hphase] at hat
  exact h.move (by simp [hphase]) nofun hat

/-- The section of the thread, in one step. -/
theorem Discipline.commit (hI : I s.sys) {a : A} (hstage : s.stage t = .called a)
    (henter : prog.enter a (s.sys.pc t) = some K) {p : P} {n : ∀ x, V x} (hrun : K.run s.sys.mem = some (p, n)) :
    Coarse.Steps prog ok s []
        ⟨{ s.sys with mem := n, pc := Function.update s.sys.pc t p }, Function.update s.stage t .done⟩ ∧
      I { s.sys with mem := n, pc := Function.update s.sys.pc t p } ∧
      D { s.sys with mem := n, pc := Function.update s.sys.pc t p } t ⊆ D s.sys t := by
  have halive := hd.alive hI
  have hcode := doCode_some (t := t) hrun
  have hstep : Coarse.Step prog ok s [] ⟨s.sys.doCode t K, Function.update s.stage t .done⟩ := .take hstage henter
  have hinv := hd.code hI henter
  have hsub := hd.code_subset hI henter
  rw [hcode] at hstep hinv hsub
  exact ⟨.one halive hstep, hinv halive, hsub⟩

/-- **`spin_unlock`**: at the end of the section it has taken place. -/
theorem Sim.unlock (h : Sim prog b I D f s) {p : P} (hphase : f.phase t = .inside (.ret p)) :
    Follows prog ok b I D s [.ret t p] ({ f with lock := 0 }.goto t (.out p)) := by
  have hold := h.hold hphase
  have hopen := hold.held.unlock p
  cases hold.pending with
  | before once a K₀ stage enter hrun =>
    obtain ⟨hstep, hI, -⟩ := hd.commit h.inv stage enter hrun.symm
    refine ⟨_, hstep.trans (.one (hd.alive hI) (.returns (Function.update_self t _ _) (Function.update_self t _ _))),
      Or.inl ⟨hI, h.alive, h.calls, fun u => ?_, Or.inl ⟨hopen, rfl⟩⟩⟩
    dsimp only
    rw [Function.update_idem]
    have hat : (Phase.out p : Phase L V P).At prog p .out := ⟨rfl, rfl⟩
    exact at_update (f := { f with lock := 0 }) h.phase hat u
  | after late stage hrun =>
    obtain ⟨rfl, hmem⟩ := Prod.mk.inj (Option.some.inj hrun)
    refine ⟨_, .one (hd.alive h.inv) (.ret stage), Or.inl ⟨h.inv, h.alive, h.calls, ?_, Or.inl ⟨hopen, hmem⟩⟩⟩
    exact at_update_stage (f := { f with lock := 0 }) h.phase ⟨rfl, rfl⟩

theorem Sim.null (h : Sim prog b I D f s) (hphase : f.phase t = .inside .null) :
    Follows prog ok b I D s [] { f with crashed := true } := by
  cases (h.hold hphase).pending with
  | before once a K₀ stage enter hrun =>
    have hstep : Coarse.Step prog ok s [] ⟨s.sys.doCode t K₀, Function.update s.stage t .done⟩ := .take stage enter
    rw [doCode_none hrun.symm] at hstep
    exact ⟨_, .one (hd.alive h.inv) hstep, Or.inr ⟨rfl, rfl, h.calls⟩⟩
  | after late stage hrun => exact late.elim

omit hd in
theorem Sim.read (h : Sim prog b I D f s) {x : L} {k : V x → Code L V P} (hphase : f.phase t = .inside (.read x k)) :
    Sim prog b I D (f.goto t (.inside (k (f.mem x)))) s := by
  have hold := h.hold hphase
  refine ⟨h.inv, h.alive, h.calls, at_goto h.phase trivial, Or.inr ⟨t, _, hold.advance hold.shown hold.avoids.2 ?_⟩⟩
  cases hold.pending with
  | before once a K₀ stage enter hrun => exact .before (once _) a K₀ stage enter hrun
  | after late stage hrun => exact .after (late _) stage hrun

/-- **A write** of the section: with the write of `b` the section takes place. -/
theorem Sim.write (h : Sim prog b I D f s) {x : L} {v : V x} {k : Code L V P}
    (hphase : f.phase t = .inside (.write x v k)) :
    Follows prog ok b I D s [] ({ f with mem := Function.update f.mem x v }.goto t (.inside k)) := by
  have hold := h.hold hphase
  have hstay : x ≠ b → Function.update f.mem x v b = s.sys.mem b := fun hxb =>
    (Function.update_of_ne hxb.symm v f.mem).trans hold.shown
  have hgo : Function.update f.mem x v b = s.sys.mem b → Pending prog b s t k (Function.update f.mem x v) →
      Sim prog b I D ({ f with mem := Function.update f.mem x v }.goto t (.inside k)) s := fun hshown hpending =>
    ⟨h.inv, h.alive, h.calls, at_goto (f := { f with mem := Function.update f.mem x v }) h.phase trivial,
      Or.inr ⟨t, k, hold.advance hshown hold.avoids.2 hpending⟩⟩
  cases hold.pending with
  | before once a K₀ stage enter hrun =>
    by_cases hxb : x = b
    · rw [Code.Once, if_pos hxb] at once
      obtain ⟨p, n, hn, hnb⟩ := once.run (Function.update f.mem x v)
      obtain ⟨hstep, hI, hmono⟩ := hd.commit h.inv stage enter (hrun.symm.trans hn)
      refine ⟨_, hstep, Or.inl ⟨hI, h.alive, h.calls,
        at_update (f := { f with mem := Function.update f.mem x v }) h.phase trivial, Or.inr ⟨t, k, ?_⟩⟩⟩
      refine hold.advance hnb.symm (hold.avoids.2.mono hmono) (.after once (Function.update_self t _ _) (hn.trans ?_))
      exact congrArg (fun q => some (q, n)) (Function.update_self t p s.sys.pc).symm
    · rw [Code.Once, if_neg hxb] at once
      exact ⟨s, .refl s, Or.inl (hgo (hstay hxb) (.before once a K₀ stage enter hrun))⟩
  | after late stage hrun => exact ⟨s, .refl s, Or.inl (hgo (hstay late.1) (.after late.2 stage hrun))⟩

/-- **One step** of the threads is some steps between sections. -/
theorem Sim.step (h : Sim prog b I D f s) {act : Fine.Act T A} (hok : ∀ t a, act = .outer t a → ok a f.calls)
    (hstep : Fine.step prog f act = some f') : Follows prog ok b I D s (f.label prog act) f' := by
  have hstay : ∀ {f' : Fine T L V P G}, Sim prog b I D f' s → Follows prog ok b I D s [] f' := fun hsim =>
    ⟨s, .refl s, Or.inl hsim⟩
  unfold Fine.step at hstep
  split_ifs at hstep
  cases act with
  | outer t a =>
    dsimp only [Fine.outer] at hstep
    split at hstep
    · rename_i p hphase
      obtain ⟨⟨task, g⟩, htask, rfl⟩ := Option.map_eq_some_iff.mp hstep
      have hlabel : f.label prog (.outer t a) = [.task t a p (task.run f.mem).1] := by
        simp [Fine.label, hphase, htask]
      rw [hlabel]
      exact h.task hd hphase (hok t a rfl) htask
    · cases hstep
  | enter t a =>
    dsimp only [Fine.enter] at hstep
    split at hstep
    · rename_i p hphase
      obtain ⟨K, henter, rfl⟩ := Option.map_eq_some_iff.mp hstep
      have hlabel : f.label prog (.enter t a) = [.call t a p] := by
        simp [Fine.label, hphase]
      rw [hlabel]
      exact h.call hd hphase henter
    · cases hstep
  | access t =>
    dsimp only [Fine.access] at hstep
    split at hstep
    · cases hstep
    · obtain rfl := Option.some.inj hstep
      simpa [Fine.label, ‹f.phase t = _›] using hstay (h.exchange hd ‹_›)
    · obtain rfl := Option.some.inj hstep
      simp only [Fine.label, ‹f.phase t = _›]
      split_ifs
      · exact hstay (h.waits ‹_›)
      · exact hstay h
    · obtain rfl := Option.some.inj hstep
      simpa [Fine.label, ‹f.phase t = _›] using h.unlock hd ‹_›
    · obtain rfl := Option.some.inj hstep
      simpa [Fine.label, ‹f.phase t = _›] using h.null hd ‹_›
    · obtain rfl := Option.some.inj hstep
      simpa [Fine.label, ‹f.phase t = _›] using hstay (h.read ‹_›)
    · obtain rfl := Option.some.inj hstep
      simpa [Fine.label, ‹f.phase t = _›] using h.write hd ‹_›

/-- **Every run** of the threads is a run of sections with the same trace. -/
theorem Sim.run (h : Sim prog b I D f s) {acts : List (Fine.Act T A)} (hkeeps : f.Keeps prog ok acts)
    (hrun : Fine.run prog f acts = some f') : Follows prog ok b I D s (f.trace prog acts) f' := by
  induction acts generalizing f s with
  | nil =>
    obtain rfl := Option.some.inj hrun
    exact ⟨s, .refl s, Or.inl h⟩
  | cons act acts ih =>
    obtain ⟨f₁, hstep, hrest⟩ := Option.bind_eq_some_iff.mp hrun
    obtain ⟨s₁, hs₁, hafter⟩ := h.step hd hkeeps.1 hstep
    rw [Fine.trace, hstep, Option.elim_some]
    rcases hafter with hsim | hnull
    · obtain ⟨s₂, hs₂, hafter⟩ := ih hsim (hkeeps.2 f₁ hstep) hrest
      exact ⟨s₂, hs₁.trans hs₂, hafter⟩
    · obtain ⟨rfl, rfl⟩ := Fine.run_of_crashed hnull.1 hrest
      exact ⟨s₁, by simpa [Fine.trace] using hs₁, Or.inr hnull⟩

end Moves

def Sys.fine (s : Sys T L V P G) : Fine T L V P G := ⟨s.mem, 0, fun t => .out (s.pc t), s.calls, s.crashed⟩

def Sys.coarse (s : Sys T L V P G) : Coarse T A L V P G := ⟨s, fun _ => .out⟩

omit [DecidableEq T] [DecidableEq L] in
theorem open_fine (s : Sys T L V P G) : s.fine.Open := ⟨rfl, fun _ _ => nofun⟩

omit [DecidableEq T] in
theorem sim_fine {s : Sys T L V P G} (hs : s.crashed = false) (hI : I s) : Sim prog b I D s.fine s.coarse :=
  ⟨hI, hs, rfl, fun _ => ⟨rfl, rfl⟩, Or.inl ⟨open_fine s, rfl⟩⟩

end Simulation

end FOSketch.Sections
