import FOSketch.Heavy.Prepare

/-!
# `ecall_fos_test`

The handler of the commands `0` to `6` that `FOS_test_ecall` sends in every round. Command `0` prepares the data, command
`2` makes the two sketches and consumes the buffers they are filled from, command `6` frees them. The result of command `0`
is not looked at: a round is safe exactly if each sketch that is filled finds a buffer, from the message of the round or
left over from an earlier one (`run_ok_iff`).
-/

namespace FOSketch.Driver

open Heavy Secure

/-! ## The handler -/

/-- A null pointer that is followed. -/
inductive Fault where
  | pOCUSketch
  | pOSTable
  | pDataCUSketch
  | pDataStashTable
  deriving DecidableEq

/-- `sketchType`, which is `X` when the initialisation failed. -/
inductive SketchType where
  | C
  | T
  | X
  deriving DecidableEq

structure Globals where
  epoch : Epoch
  pOCUSketch : Option SketchType
  pOSTable : Option SketchType
  noMoreTest : Nat

/-- What the commands of a round get: the message with its context and what `rand` and `malloc` return, and whether the
levels of the sketches pass the check of `Init_OCU`. -/
structure Round where
  draws : Draws
  mallocs : Mallocs
  pMsgSketch : Message
  pCtx : Ctx
  initC : Bool
  initT : Bool

/-- `new FOSketch`: a sketch whose level passes is filled from `pSource`, which is consumed. -/
def newSketch {α : Type} (type : SketchType) (levelOK : Bool) (pSource : Option α) (null : Fault) :
    Except Fault (SketchType × Option α) :=
  if levelOK then
    match pSource with
    | none => .error null
    | some _ => .ok (type, none)
  else .ok (.X, pSource)

def made (s : Globals) (c t : SketchType) (pcus : Option (Nat → Byte)) (pst : Option (Nat → Item)) : Globals :=
  { s with
    epoch := { s.epoch with pDataCUSketch := pcus, pDataStashTable := pst }
    pOCUSketch := some c
    pOSTable := some t }

/-- Command `2`. On failure it frees `pDataForCUSketch`, but leaves the address in `pDataCUSketch`. -/
def makeSketches (r : Round) (s : Globals) : Except Fault Globals := do
  let c ← newSketch .C r.initC s.epoch.pDataCUSketch .pDataCUSketch
  let t ← newSketch .T r.initT s.epoch.pDataStashTable .pDataStashTable
  let s := made s c.1 t.1 c.2 t.2
  if c.1 = .X ∨ t.1 = .X then .ok { s with pOSTable := none, noMoreTest := 10 } else .ok s

/-- A call of a method. -/
def follow (p : Option SketchType) (null : Fault) : Except Fault Unit :=
  match p with
  | none => .error null
  | some _ => .ok ()

/-- `ecall_fos_test` with `in[0] = command`. The accesses of command `4` stay within the sketches. -/
def ecall_fos_test (out : Outside) (command : Nat) (r : Round) (s : Globals) : Except Fault Globals :=
  let s := if command = 0 then { s with noMoreTest := 0 } else s
  match command + s.noMoreTest with
  | 0 =>
    .ok { s with noMoreTest := 0, epoch := (OPrepareData out r.draws r.mallocs r.pMsgSketch r.pCtx s.epoch).1 }
  | 2 => makeSketches r s
  | 4 | 5 => do
    follow s.pOCUSketch .pOCUSketch
    follow s.pOSTable .pOSTable
    .ok s
  | 6 => do
    follow s.pOCUSketch .pOCUSketch
    follow s.pOSTable .pOSTable
    .ok { s with pOCUSketch := none, pOSTable := none }
  | _ => .ok s

/-- The calls of one round. -/
def commands (r : Round) : List (Nat × Round) := (List.range 7).map fun j => (j, r)

def FOS_test_ecall (rounds : List Round) : List (Nat × Round) := rounds.flatMap commands

def run (out : Outside) (s : Globals) (calls : List (Nat × Round)) : Except Fault Globals :=
  calls.foldlM (fun s c => ecall_fos_test out c.1 c.2 s) s

def start : Globals := ⟨epochOf noItems fun _ => ⟨0, 0⟩, none, none, 0⟩

/-! ## One round -/

section OneRound
variable {out : Outside} {r : Round} {s : Globals}

/-- The message is accepted. -/
def accepted (out : Outside) (r : Round) : Bool := (receive out r.mallocs r.pMsgSketch r.pCtx).isSome

/-- Each sketch that is filled finds a buffer; `cus` and `st` say whether one was left over. -/
def RoundSupplied (out : Outside) (cus st : Bool) (r : Round) : Prop :=
  (r.initC = true → (accepted out r || cus) = true) ∧ (r.initT = true → (accepted out r || st) = true)

theorem run_append (out : Outside) (s : Globals) (a b : List (Nat × Round)) :
    run out s (a ++ b) = (run out s a).bind fun s => run out s b := by
  unfold run
  rw [List.foldlM_append]
  rfl

def prepared (out : Outside) (r : Round) (s : Globals) : Globals :=
  { s with noMoreTest := 0, epoch := (OPrepareData out r.draws r.mallocs r.pMsgSketch r.pCtx s.epoch).1 }

theorem isSome_prepared (out : Outside) (r : Round) (s : Globals) :
    (prepared out r s).epoch.pDataCUSketch.isSome = (accepted out r || s.epoch.pDataCUSketch.isSome) ∧
      (prepared out r s).epoch.pDataStashTable.isSome = (accepted out r || s.epoch.pDataStashTable.isSome) := by
  unfold prepared OPrepareData accepted
  dsimp only
  cases receive out r.mallocs r.pMsgSketch r.pCtx with
  | none => exact ⟨rfl, rfl⟩
  | some p2Sketch => exact ⟨rfl, rfl⟩

theorem newSketch_ok {α : Type} (type : SketchType) {levelOK : Bool} {pSource : Option α}
    (h : levelOK = true → pSource.isSome = true) (null : Fault) :
    ∃ p, newSketch type levelOK pSource null = .ok (if levelOK then type else .X, p) ∧
      p.isSome = (pSource.isSome && !levelOK) := by
  cases levelOK with
  | false => exact ⟨pSource, rfl, (Bool.and_true _).symm⟩
  | true =>
    obtain ⟨x, rfl⟩ := Option.isSome_iff_exists.mp (h rfl)
    exact ⟨none, rfl, rfl⟩

theorem newSketch_error {α : Type} (type : SketchType) {levelOK : Bool} {pSource : Option α}
    (h : ¬(levelOK = true → pSource.isSome = true)) (null : Fault) :
    newSketch type levelOK pSource null = .error null := by
  rw [Classical.not_imp, Bool.not_eq_true, Option.isSome_eq_false_iff, Option.isNone_iff_eq_none] at h
  rw [h.1, h.2]
  rfl

/-- The calls of a round from command `2` on. -/
def sketchCommands (r : Round) : List (Nat × Round) := [(2, r), (3, r), (4, r), (5, r), (6, r)]

theorem run_commands : run out s (commands r) = run out (prepared out r s) (sketchCommands r) := by
  have hcommands : commands r = (0, r) :: (1, r) :: sketchCommands r := rfl
  rw [hcommands]
  rfl

/-- While both sketches exist no command fails, and the last one frees them. -/
theorem run_made {c t : SketchType} (hc : s.pOCUSketch = some c) (ht : s.pOSTable = some t) (hmore : s.noMoreTest = 0) :
    run out s [(3, r), (4, r), (5, r), (6, r)] = .ok { s with pOCUSketch := none, pOSTable := none } := by
  obtain ⟨epoch, pOCUSketch, pOSTable, noMoreTest⟩ := s
  dsimp only at hc ht hmore
  subst hc ht hmore
  rfl

/-- After a failed initialisation the other commands do nothing. -/
theorem run_blocked (hmore : s.noMoreTest = 10) : run out s [(3, r), (4, r), (5, r), (6, r)] = .ok s := by
  obtain ⟨epoch, pOCUSketch, pOSTable, noMoreTest⟩ := s
  dsimp only at hmore
  subst hmore
  rfl

theorem run_sketchCommands_eq (hmore : s.noMoreTest = 0) :
    run out s (sketchCommands r) = (makeSketches r s).bind fun s => run out s [(3, r), (4, r), (5, r), (6, r)] := by
  obtain ⟨epoch, pOCUSketch, pOSTable, noMoreTest⟩ := s
  dsimp only at hmore
  subst hmore
  rfl

theorem run_sketchCommands (hmore : s.noMoreTest = 0) {c t : SketchType} {pcus : Option (Nat → Byte)}
    {pst : Option (Nat → Item)} (hc : newSketch .C r.initC s.epoch.pDataCUSketch .pDataCUSketch = .ok (c, pcus))
    (ht : newSketch .T r.initT s.epoch.pDataStashTable .pDataStashTable = .ok (t, pst)) :
    ∃ s', run out s (sketchCommands r) = .ok s' ∧ s'.epoch = (made s c t pcus pst).epoch := by
  have hmade : makeSketches r s = if c = .X ∨ t = .X
      then .ok { made s c t pcus pst with pOSTable := none, noMoreTest := 10 } else .ok (made s c t pcus pst) := by
    unfold makeSketches
    rw [hc, ht]
    rfl
  rw [run_sketchCommands_eq hmore, hmade]
  split_ifs
  · exact ⟨_, run_blocked rfl, rfl⟩
  · exact ⟨_, run_made rfl rfl hmore, rfl⟩

/-- **A round that is supplied** runs through, and leaves the buffers it did not consume. -/
theorem run_round (h : RoundSupplied out s.epoch.pDataCUSketch.isSome s.epoch.pDataStashTable.isSome r) :
    ∃ s', run out s (commands r) = .ok s' ∧
      s'.epoch.pDataCUSketch.isSome = ((accepted out r || s.epoch.pDataCUSketch.isSome) && !r.initC) ∧
      s'.epoch.pDataStashTable.isSome = ((accepted out r || s.epoch.pDataStashTable.isSome) && !r.initT) := by
  obtain ⟨hcus, hst⟩ := isSome_prepared out r s
  obtain ⟨pcus, hc, hpcus⟩ := newSketch_ok .C (fun hi => hcus.trans (h.1 hi)) .pDataCUSketch
  obtain ⟨pst, ht, hpst⟩ := newSketch_ok .T (fun hi => hst.trans (h.2 hi)) .pDataStashTable
  obtain ⟨s', hrun, hepoch⟩ := run_sketchCommands (show (prepared out r s).noMoreTest = 0 from rfl) hc ht
  refine ⟨s', run_commands.trans hrun, ?_, ?_⟩
  · rw [hepoch, ← hcus]
    exact hpcus
  · rw [hepoch, ← hst]
    exact hpst

/-- **A round that is not supplied** follows a null pointer. -/
theorem run_round_error (h : ¬RoundSupplied out s.epoch.pDataCUSketch.isSome s.epoch.pDataStashTable.isSome r) :
    ∃ f, run out s (commands r) = .error f := by
  obtain ⟨hcus, hst⟩ := isSome_prepared out r s
  have hmore : (prepared out r s).noMoreTest = 0 := rfl
  rw [run_commands]
  unfold RoundSupplied at h
  rw [← hcus, ← hst] at h
  rw [run_sketchCommands_eq hmore]
  unfold makeSketches
  by_cases hc : r.initC = true → (prepared out r s).epoch.pDataCUSketch.isSome = true
  · obtain ⟨pcus, hnew, -⟩ := newSketch_ok .C hc .pDataCUSketch
    have ht := newSketch_error .T (fun hi => h ⟨hc, hi⟩) .pDataStashTable
    rw [hnew, ht]
    exact ⟨_, rfl⟩
  · rw [newSketch_error .C hc .pDataCUSketch]
    exact ⟨_, rfl⟩

end OneRound

/-! ## Runs -/

/-- Every round is supplied; `cus` and `st` say whether a buffer is left over before the first. -/
def Supplied (out : Outside) : Bool → Bool → List Round → Prop
  | _, _, [] => True
  | cus, st, r :: rounds =>
    RoundSupplied out cus st r ∧
      Supplied out ((accepted out r || cus) && !r.initC) ((accepted out r || st) && !r.initT) rounds

theorem run_rounds_ok_iff (out : Outside) (rounds : List Round) (s : Globals) :
    (∃ s', run out s (FOS_test_ecall rounds) = .ok s') ↔
      Supplied out s.epoch.pDataCUSketch.isSome s.epoch.pDataStashTable.isSome rounds := by
  induction rounds generalizing s with
  | nil => exact iff_of_true ⟨s, rfl⟩ trivial
  | cons r rounds ih =>
    have hcons : FOS_test_ecall (r :: rounds) = commands r ++ FOS_test_ecall rounds := rfl
    rw [hcons, run_append, Supplied]
    by_cases h : RoundSupplied out s.epoch.pDataCUSketch.isSome s.epoch.pDataStashTable.isSome r
    · obtain ⟨s', hrun, hcus, hst⟩ := run_round h
      rw [hrun, and_iff_right h, ← hcus, ← hst]
      exact ih s'
    · obtain ⟨f, hrun⟩ := run_round_error h
      rw [hrun]
      refine iff_of_false ?_ fun hs => h hs.1
      rintro ⟨s', he⟩
      cases he

/-- **No null pointer is followed** exactly if every round is supplied. -/
theorem run_ok_iff (out : Outside) (rounds : List Round) :
    (∃ s, run out start (FOS_test_ecall rounds) = .ok s) ↔ Supplied out false false rounds :=
  run_rounds_ok_iff out rounds start

/-- The first message is rejected, and the sketch is filled from a null pointer. -/
theorem run_null_source :
    run noOutside start (FOS_test_ecall [⟨noDraws, noMallocs, emptyMessage, zeroCtx, true, true⟩]) =
      .error .pDataCUSketch := rfl

end FOSketch.Driver
