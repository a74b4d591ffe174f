import FOSketch.Oram.NonOblivious
import FOSketch.Slots.Snapshots

/-!
# The locations an access touches

`OAccessTrace` lists the position-map cache lines, tree buckets and stash slots that `OAccess` touches, in their order.
Every trace follows the loop of its routine. `OAccessTrace_eq` brings it into the form that is compared: what comes before
`OReadFromStash` depends on the leaf only, and `ORebuildStash` shows the cache lines of the ids in the slots at the start
of each scan.
-/

namespace FOSketch.Oram

open Slots

variable {n : Nat} {L : Layout}

inductive Event where
  | posLine (l : Nat)
  | bucket (k : Nat)
  | slot (j : Nat)
  deriving DecidableEq, Repr

def lineOf (i : Nat) : Nat := i / (CACHE_LINE / sizeofBid)

/-- Consecutive repeats of a cache line count once; `last` is the event before. -/
def collapse : Option Event → List Event → List Event
  | _, [] => []
  | last, .posLine l :: es =>
    if last = some (.posLine l) then collapse last es else .posLine l :: collapse (some (.posLine l)) es
  | _, e :: es => e :: collapse (some e) es

/-! ## The traces of the routines -/

def lookUpTrace (nBlock bid : Nat) : List Event :=
  let pace := CACHE_LINE / sizeofBid
  (List.range' 0 ((nBlock + (pace - 1)) / pace) pace).flatMap fun i =>
    .posLine (lineOf i) :: if i == bid - bid % pace then [.posLine (lineOf bid)] else []

def pathTrace (level leaf : Nat) : List Event := (pathBuckets level leaf).map .bucket

/-- `writeScan`; a turn touches slot `j` only. -/
def writeScanTrace (pace : Nat) (p : Block n) : Nat → Nat → Bool → List (Block n) → List Event
  | _, _, _, [] => []
  | j, length_st, found, s :: slots =>
    if j < length_st then
      let cond := !s.real && p.real
      if j == length_st - 1 && !found && (s.real && p.real) then
        if MAX_STASH_NUM < length_st + pace then [.slot j]
        else .slot j :: writeScanTrace pace p (j + 1) (length_st + pace) (found || cond) slots
      else .slot j :: writeScanTrace pace p (j + 1) length_st (found || cond) slots
    else []

def writeTrace {L : Layout} : State L → List (Block L.bytes) → List Event
  | _, [] => []
  | s, p :: ps =>
    writeScanTrace PACE_STASH p 0 s.length_st false s.stash ++ writeTrace (OWriteToStash s [[p]]) ps

def missingTrace : Nat → Nat → List (Block n) → List Event
  | _, _, [] => []
  | i, length_st, s :: slots =>
    if i < length_st then
      if !s.real then [.slot i, .slot i]
      else if i == length_st - 1 then
        if MAX_STASH_NUM < length_st + 8 then [.slot i]
        else .slot i :: missingTrace (i + 1) (length_st + 8) slots
      else .slot i :: missingTrace (i + 1) length_st slots
    else []

/-- Whether the first loop of `OReadFromStash` finds the block. -/
def foundIn (bid : Nat) (slots : List (Block n)) : Bool := slots.any fun s => s.blockID.val == bid

/-- `OReadFromStash`: `pos_map[bid]` is read and written, then the stash is scanned. -/
def readTrace {L : Layout} (s : State L) (bid : Nat) : List Event :=
  [.posLine (lineOf bid), .posLine (lineOf bid)] ++ (List.range s.length_st).map .slot ++
    if foundIn bid (s.stash.take s.length_st) then [] else missingTrace 0 s.length_st s.stash

/-- `evictScan` from slot `k` on: the flag is read, its position looked up, the slot read or written. -/
def evictTrace : Nat → List (Block n) → List Event
  | _, [] => []
  | k, s :: slots => .slot k :: .posLine (lineOf s.blockID.val) :: .slot k :: evictTrace (k + 1) slots

def placesTrace (scan : Block n → List (Block n) → List (Block n) × Block n) :
    List (Block n) → List (Block n) → List Event
  | [], _ => []
  | p :: bucket, slots => evictTrace 0 slots ++ placesTrace scan bucket (scan p slots).1

def levelsTrace (scan : Nat → Block n → List (Block n) → List (Block n) × Block n) :
    Nat → List (List (Block n)) → List (Block n) → List Event
  | _, [], _ => []
  | i, bucket :: Path, slots =>
    levelsTrace scan (i + 1) Path slots ++
      placesTrace (scan i) bucket (fillLevels (fun i => fillPlaces (scan i)) (i + 1) Path slots).2

/-- `ORebuildStash` up to the compression. -/
def rebuildTrace {L : Layout} (s : State L) (Path : List (List (Block L.bytes))) (leaf : Nat) : List Event :=
  levelsTrace (fun i => evictScan (fun px py cond => OMoveEx px py cond L.sizeBlock)
    (onPath L.level s.pos_map leaf i) false false) 0 (Path.map fun bucket => bucket.map Block.erase)
    (s.stash.take s.length_st)

/-- `OCompressStash`: the comparators of the sorter, then the count. -/
def compressTrace (length_st : Nat) : List Event :=
  ((Network.sortNet BitonicSorter.half true length_st length_st).flatMap fun c => [.slot c.lo, .slot c.hi]) ++
    (List.range length_st).map .slot

/-- The locations `OAccess` touches. The assertions are defined away and touch none. -/
def OAccessTrace {L : Layout} (s : State L) (index : Nat) (r : Int) (blk : Block L.bytes) : List Event :=
  let bid := (toBid (L.block index)).val
  let leaf := (lookUpLine s.pos_map L.nBlock bid).val
  let Path := readPath s leaf
  let w := OWriteToStash s Path
  let t := (OReadFromStash w bid r blk).1
  collapse none (lookUpTrace L.nBlock bid ++ pathTrace L.level leaf ++ writeTrace s Path.flatten ++ readTrace w bid ++
    rebuildTrace t Path leaf ++ (if L.needComStash then compressTrace t.length_st else []) ++ pathTrace L.level leaf)

/-! ## Collapsing -/

theorem collapse_slot (last : Option Event) (j : Nat) (es : List Event) :
    collapse last (.slot j :: es) = .slot j :: collapse (some (.slot j)) es := rfl

theorem collapse_bucket (last : Option Event) (k : Nat) (es : List Event) :
    collapse last (.bucket k :: es) = .bucket k :: collapse (some (.bucket k)) es := rfl

theorem collapse_posLine_self (l : Nat) (es : List Event) :
    collapse (some (.posLine l)) (.posLine l :: es) = collapse (some (.posLine l)) es := by
  rw [collapse, if_pos rfl]

theorem collapse_posLine_ne {last : Option Event} {l : Nat} (h : last ≠ some (.posLine l)) (es : List Event) :
    collapse last (.posLine l :: es) = .posLine l :: collapse (some (.posLine l)) es := by
  rw [collapse, if_neg h]

/-- The event before matters only if it is a position-map line. -/
theorem collapse_of_slot (last : Option Event) (hlast : ∀ l, last ≠ some (.posLine l)) (es : List Event) :
    collapse last es = collapse none es := by
  cases es with
  | nil => rfl
  | cons e es =>
    cases e with
    | posLine l => rw [collapse_posLine_ne (hlast l), collapse_posLine_ne (by simp)]
    | bucket k => rfl
    | slot j => rfl

def NoLines (es : List Event) : Prop := ∀ e ∈ es, ∀ l, e ≠ .posLine l

theorem collapse_append_of_noLines {as : List Event} (h : NoLines as) (hne : as ≠ []) (last : Option Event)
    (es : List Event) : collapse last (as ++ es) = as ++ collapse none es := by
  induction as generalizing last with
  | nil => exact absurd rfl hne
  | cons e as ih =>
    have hcons : collapse last (e :: as ++ es) = e :: collapse (some e) (as ++ es) := by
      cases e with
      | posLine l => exact absurd rfl (h _ List.mem_cons_self l)
      | bucket k => rfl
      | slot j => rfl
    rw [hcons]
    by_cases has : as = []
    · subst has
      rw [List.nil_append, collapse_of_slot _ fun l he => h e List.mem_cons_self l (Option.some.inj he)]
      rfl
    · rw [ih (fun f hf => h f (List.mem_cons_of_mem e hf)) has]
      rfl

theorem collapse_noLines_append {as : List Event} (h : NoLines as) (es : List Event) :
    collapse none (as ++ es) = as ++ collapse none es := by
  by_cases hne : as = []
  · rw [hne]
    rfl
  · exact collapse_append_of_noLines h hne none es

theorem noLines_map_slot (l : List Nat) : NoLines (l.map .slot) := by
  intro e he k
  obtain ⟨j, -, rfl⟩ := List.mem_map.mp he
  exact fun h => Event.noConfusion h

theorem noLines_pathTrace (level leaf : Nat) : NoLines (pathTrace level leaf) := by
  intro e he k
  obtain ⟨j, -, rfl⟩ := List.mem_map.mp he
  exact fun h => Event.noConfusion h

theorem noLines_append {as bs : List Event} (ha : NoLines as) (hb : NoLines bs) : NoLines (as ++ bs) :=
  fun e he => (List.mem_append.mp he).elim (ha e) (hb e)

theorem noLines_writeScanTrace (pace : Nat) (p : Block n) (j length_st : Nat) (found : Bool) (slots : List (Block n)) :
    NoLines (writeScanTrace pace p j length_st found slots) := by
  induction slots generalizing j length_st found with
  | nil => exact fun e he => absurd he List.not_mem_nil
  | cons s slots ih =>
    have hcons : ∀ (k : Nat) {es : List Event}, NoLines es → NoLines (.slot k :: es) := fun k es h =>
      List.forall_mem_cons.mpr ⟨fun l he => Event.noConfusion he, h⟩
    unfold writeScanTrace
    dsimp only
    split_ifs
    · exact hcons j fun e he => absurd he List.not_mem_nil
    · exact hcons j (ih _ _ _)
    · exact hcons j (ih _ _ _)
    · exact fun e he => absurd he List.not_mem_nil

theorem noLines_writeTrace (ps : List (Block L.bytes)) (s : State L) : NoLines (writeTrace s ps) := by
  induction ps generalizing s with
  | nil => exact fun e he => absurd he List.not_mem_nil
  | cons p ps ih => exact noLines_append (noLines_writeScanTrace _ _ _ _ _ _) (ih _)

theorem noLines_missingTrace (i length_st : Nat) (slots : List (Block n)) :
    NoLines (missingTrace i length_st slots) := by
  induction slots generalizing i length_st with
  | nil => exact fun e he => absurd he List.not_mem_nil
  | cons s slots ih =>
    have hcons : ∀ (k : Nat) {es : List Event}, NoLines es → NoLines (.slot k :: es) := fun k es h =>
      List.forall_mem_cons.mpr ⟨fun l he => Event.noConfusion he, h⟩
    have hnil : NoLines [] := fun e he => absurd he List.not_mem_nil
    unfold missingTrace
    split_ifs
    · exact hcons i (hcons i hnil)
    · exact hcons i hnil
    · exact hcons i (ih _ _)
    · exact hcons i (ih _ _)
    · exact hnil

theorem noLines_compressTrace (length_st : Nat) : NoLines (compressTrace length_st) := by
  refine noLines_append ?_ (noLines_map_slot _)
  intro e he l
  obtain ⟨c, -, hc⟩ := List.mem_flatMap.mp he
  rcases List.mem_cons.mp hc with rfl | hc
  · exact fun h => Event.noConfusion h
  · rw [List.mem_singleton.mp hc]
    exact fun h => Event.noConfusion h

theorem collapse_lines (bid k : Nat) (es : List Event) (m t : Nat) (last : Option Event)
    (hlast : ∀ l, last = some (.posLine l) → l < t) :
    collapse last ((List.range' (32 * t) m 32).flatMap (fun i =>
      .posLine (lineOf i) :: if i == bid - bid % 32 then [.posLine (lineOf bid)] else []) ++ .bucket k :: es) =
      (List.range' t m).map .posLine ++ .bucket k :: collapse none es := by
  induction m generalizing t last with
  | zero =>
    rw [List.range'_zero, List.flatMap_nil, List.nil_append, collapse_bucket, collapse_of_slot _ (by simp)]
    rfl
  | succ m ih =>
    have hline : lineOf (32 * t) = t := Nat.mul_div_cancel_left t (by decide)
    have hne : last ≠ some (.posLine t) := fun h => lt_irrefl t (hlast t h)
    have hrest := ih (t + 1) (some (.posLine t)) (by
      intro l hl
      obtain rfl : t = l := by simpa using hl
      exact Nat.lt_succ_self t)
    rw [show 32 * (t + 1) = 32 * t + 32 by ring] at hrest
    rw [List.range'_succ, List.range'_succ, List.flatMap_cons, hline, List.map_cons, List.append_assoc,
      List.cons_append, collapse_posLine_ne hne, List.cons_append]
    congr 1
    by_cases hi : 32 * t = bid - bid % 32
    · have hbid : lineOf bid = t := by
        change bid / 32 = t
        omega
      rw [hbid] at hrest ⊢
      rw [beq_iff_eq.mpr hi, if_pos rfl, List.cons_append, List.nil_append, collapse_posLine_self, hrest]
    · rw [beq_eq_false_iff_ne.mpr hi, if_neg Bool.false_ne_true, List.nil_append, hrest]

/-- The look-up touches the lines one after the other, whatever `bid` is. -/
theorem collapse_lookUpTrace (nBlock bid k : Nat) (es : List Event) :
    collapse none (lookUpTrace nBlock bid ++ .bucket k :: es) =
      (List.range ((nBlock + 31) / 32)).map .posLine ++ .bucket k :: collapse none es := by
  have h := collapse_lines bid k es ((nBlock + 31) / 32) 0 none (by simp)
  rw [← List.range_eq_range'] at h
  exact h

/-! ## The scans of the rebuild -/

/-- The levels in the order of the scans, one entry for every place of the buckets. -/
def scanLevels (L : Layout) : List Nat :=
  (List.range (L.level + 1)).reverse.flatMap fun i => List.replicate L.sizeBucket i

/-- The slots at the start of every scan of `fillPlaces`. -/
def placesSlots (scan : Block n → List (Block n) → List (Block n) × Block n) :
    List (Block n) → List (Block n) → List (List (Block n))
  | [], _ => []
  | p :: bucket, slots => slots :: placesSlots scan bucket (scan p slots).1

/-- The slots at the start of every scan of `fillLevels`. -/
def levelsSlots (scan : Nat → Block n → List (Block n) → List (Block n) × Block n) :
    Nat → List (List (Block n)) → List (Block n) → List (List (Block n))
  | _, [], _ => []
  | i, bucket :: Path, slots =>
    levelsSlots scan (i + 1) Path slots ++
      placesSlots (scan i) bucket (fillLevels (fun i => fillPlaces (scan i)) (i + 1) Path slots).2

theorem placesTrace_eq_slots (scan : Block n → List (Block n) → List (Block n) × Block n)
    (bucket slots : List (Block n)) :
    placesTrace scan bucket slots = (placesSlots scan bucket slots).flatMap (evictTrace 0) := by
  induction bucket generalizing slots with
  | nil => rfl
  | cons p bucket ih => rw [placesTrace, ih, placesSlots, List.flatMap_cons]

theorem levelsTrace_eq_slots (scan : Nat → Block n → List (Block n) → List (Block n) × Block n) (i : Nat)
    (Path : List (List (Block n))) (slots : List (Block n)) :
    levelsTrace scan i Path slots = (levelsSlots scan i Path slots).flatMap (evictTrace 0) := by
  induction Path generalizing i with
  | nil => rfl
  | cons bucket Path ih => rw [levelsTrace, ih, placesTrace_eq_slots, levelsSlots, List.flatMap_append]

theorem placesSlots_eq {scan : Block n → List (Block n) → List (Block n) × Block n} {q : Block n → Bool}
    (hscan : ∀ p slots, (scan p slots).1 = (takeFirst Block.real Block.erase q slots).2)
    (bucket slots : List (Block n)) :
    placesSlots scan bucket slots = snapshots Block.real Block.erase (List.replicate bucket.length q) slots ∧
      (fillPlaces scan bucket slots).2 = takes Block.real Block.erase (List.replicate bucket.length q) slots := by
  induction bucket generalizing slots with
  | nil => exact ⟨rfl, rfl⟩
  | cons p bucket ih =>
    obtain ⟨h1, h2⟩ := ih (scan p slots).1
    rw [List.length_cons, List.replicate_succ]
    constructor
    · rw [placesSlots, h1, hscan, snapshots]
    · rw [fillPlaces, takes, ← hscan p]
      exact h2

theorem levelsSlots_eq {scan : Nat → Block n → List (Block n) → List (Block n) × Block n} {q : Nat → Block n → Bool}
    (hscan : ∀ i p slots, (scan i p slots).1 = (takeFirst Block.real Block.erase (q i) slots).2) {m : Nat} (i : Nat)
    {Path : List (List (Block n))} (hPath : ∀ bucket ∈ Path, bucket.length = m) (slots : List (Block n)) :
    levelsSlots scan i Path slots =
        snapshots Block.real Block.erase
          (((List.range' i Path.length).reverse.flatMap fun i => List.replicate m i).map q) slots ∧
      (fillLevels (fun i => fillPlaces (scan i)) i Path slots).2 =
        takes Block.real Block.erase
          (((List.range' i Path.length).reverse.flatMap fun i => List.replicate m i).map q) slots := by
  induction Path generalizing i with
  | nil => exact ⟨rfl, rfl⟩
  | cons bucket Path ih =>
    obtain ⟨h1, h2⟩ := ih (i + 1) fun b hb => hPath b (List.mem_cons_of_mem bucket hb)
    obtain ⟨h3, h4⟩ := placesSlots_eq (hscan i) bucket (fillLevels (fun i => fillPlaces (scan i)) (i + 1) Path slots).2
    rw [hPath bucket List.mem_cons_self] at h3 h4
    have hlevels : ((List.range' i (bucket :: Path).length).reverse.flatMap fun i => List.replicate m i).map q =
        ((List.range' (i + 1) Path.length).reverse.flatMap fun i => List.replicate m i).map q ++
          List.replicate m (q i) := by
      rw [List.length_cons, List.range'_succ, List.reverse_cons, List.flatMap_append, List.map_append,
        List.flatMap_singleton, List.map_replicate]
    rw [hlevels, snapshots_append, takes_append, ← h2]
    exact ⟨by rw [levelsSlots, h1, h3], h4⟩

end FOSketch.Oram
