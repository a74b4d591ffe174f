import FOSketch.Oram.Invariant

/-!
# Accesses

Every controller is the access in terms of slots (`State.accessed`) up to `length_st`: `OAccess` (`OAccess_spec`),
`OAccess_S` and `OAccess_F`. So a run of `OAccess` keeps the sketch well formed and its payloads, and delivers them
(`OAccess_run`), and the three controllers stay in lockstep (`OAccess_lockstep`).
-/

namespace FOSketch.Oram

open Slots

variable {L : Layout}

theorem OWriteToStash_eq (s : State L) (Path : List (List (Block L.bytes))) :
    OWriteToStash s Path = writeLoop PACE_STASH copyIf s Path := by
  unfold OWriteToStash
  simp only [L.OMoveEx_eq]

theorem OReadFromStash_eq (s : State L) (bid : Nat) (r : Int) (blk : Block L.bytes) :
    OReadFromStash s bid r blk = readLoop copyIf s bid r blk := by
  unfold OReadFromStash
  simp only [L.OMoveEx_eq]

theorem drawLeaf_lt (L : Layout) (r : Int) : (drawLeaf L r).val < L.nLeaf := by
  have hpos : 0 < L.nLeaf := Nat.two_pow_pos _
  unfold drawLeaf
  rw [toBid_val]
  exact (Nat.mod_le _ _).trans_lt (Nat.mod_lt _ hpos)

/-! ## One access, stage by stage -/

def State.relabelled (s : State L) (bid : Nat) (pos : Bid) (length_st : Nat) : State L where
  stash := (s.gathered bid).map (relabel bid pos)
  length_st := length_st
  OblivSK := s.OblivSK
  pos_map := Function.update s.pos_map bid pos

theorem holesFrom_map_relabel {bid : Nat} {pos : Bid} {m : Nat} {l : List (Block L.bytes)}
    (h : HolesFrom Block.real m l) : HolesFrom Block.real m (l.map (relabel bid pos)) := by
  intro b hb
  rw [← List.map_drop] at hb
  obtain ⟨c, hc, rfl⟩ := List.mem_map.mp hb
  rw [relabel_real]
  exact h c hc

/-- The only copy of `bid` is among the visible slots. -/
theorem visible_copy {m bid : Nat} {l : List (Block L.bytes)} (h : HolesFrom Block.real m l) {c : Block L.bytes}
    (hc : c ∈ l) (hid : c.blockID.val = bid) (hreal : c.real = true)
    (hone : (l.map fun b => b.blockID.val).count bid = 1) :
    (∀ b ∈ l.drop m, b.blockID.val ≠ bid) ∧ c ∈ l.take m ∧ ((l.take m).map fun b => b.blockID.val).count bid = 1 := by
  have hdrop : ∀ b ∈ l.drop m, b.blockID.val ≠ bid := by
    intro b hb he
    have h1 := Block.real_eq_false_iff.mp (h b hb)
    exact Block.real_iff.mp hreal (Fin.ext (by rw [hid, ← he, h1]))
  refine ⟨hdrop, ?_, ?_⟩
  · rw [← List.take_append_drop m l, List.mem_append] at hc
    rcases hc with hc | hc
    · exact hc
    · exact absurd hid (hdrop c hc)
  · rw [← List.take_append_drop m l, List.map_append, List.count_append, count_id_eq_zero hdrop] at hone
    exact hone

theorem map_relabel_take {m bid : Nat} (pos : Bid) {l : List (Block L.bytes)}
    (h : ∀ b ∈ l.drop m, b.blockID.val ≠ bid) :
    (l.take m).map (relabel bid pos) ++ l.drop m = l.map (relabel bid pos) := by
  conv_rhs => rw [← List.take_append_drop m l, List.map_append, map_relabel_of_ne pos h]

/-- The only copy of `bid` is relabelled and delivered. -/
theorem readLoop_spec {s : State L} (h : HolesFrom Block.real s.length_st s.stash) {bid : Nat} {c : Block L.bytes}
    (hc : c ∈ s.stash) (hid : c.blockID.val = bid) (hreal : c.real = true)
    (hone : (s.stash.map fun b => b.blockID.val).count bid = 1) (r : Int) (blk : Block L.bytes) :
    readLoop copyIf s bid r blk =
      ({ s with
          stash := s.stash.map (relabel bid (drawLeaf L r))
          pos_map := Function.update s.pos_map bid (drawLeaf L r) },
        { c with pos := drawLeaf L r }, true) := by
  obtain ⟨hdrop, htake, hcount⟩ := visible_copy h hc hid hreal hone
  unfold readLoop
  simp only [readScan_spec (drawLeaf L r) blk htake hid hcount, addIfMissing, if_true, map_relabel_take _ hdrop]

theorem readFromStash_spec {s : State L} (h : HolesFrom Block.real s.length_st s.stash) {bid : Nat}
    {c : Block L.bytes} (hc : c ∈ s.stash) (hid : c.blockID.val = bid) (hreal : c.real = true)
    (hone : (s.stash.map fun b => b.blockID.val).count bid = 1) (r : Int) (blk : Block L.bytes) :
    readFromStash s bid r blk =
      ({ s with
          stash := s.stash.map (relabel bid (drawLeaf L r))
          pos_map := Function.update s.pos_map bid (drawLeaf L r) },
        { c with pos := drawLeaf L r }, true) := by
  obtain ⟨hdrop, htake, hcount⟩ := visible_copy h hc hid hreal hone
  unfold readFromStash
  simp only [readFirst_spec (drawLeaf L r) htake hid hcount, addIfMissing, Option.isSome_some, if_true,
    Option.getD_some, map_relabel_take _ hdrop]

section Stages
variable {s : State L} (h : WellFormed s) {bid : Nat} (hb : bid < L.nBlock)
include h hb

omit hb in
theorem load_le_of_pace {pace : Nat} (hload : s.load bid + pace ≤ MAX_STASH_NUM + 1) (hpace : 0 < pace) :
    s.load bid ≤ s.stash.length := by
  rw [h.length]
  omega

/-- The path is written, the block read: a state that depends on the routines in `length_st` only. -/
theorem write_read_spec {pace : Nat} (hpace : 0 < pace) (hload : s.load bid + pace ≤ MAX_STASH_NUM + 1) (r : Int)
    (blk : Block L.bytes) : ∃ length_st', ∃ c ∈ s.copies, c.blockID.val = bid ∧
      readLoop copyIf (writeLoop pace copyIf s (readPath s (s.pos_map bid).val)) bid r blk =
        (s.relabelled bid (drawLeaf L r) length_st', { c with pos := drawLeaf L r }, true) ∧
      StashShape (s.relabelled bid (drawLeaf L r) length_st') := by
  have hroom := load_le_of_pace h hload hpace
  have hpath : (occupants Block.real (readPath s (s.pos_map bid).val).flatten).length +
      (occupants Block.real s.stash).length + pace ≤ MAX_STASH_NUM + 1 := by
    unfold State.load at hload
    omega
  obtain ⟨len, hwrite, hshape⟩ := writeLoop_spec hpace h.toStashShape hpath
  obtain ⟨c, hc, hid⟩ := exists_copy h.toPlaced hb
  have hread := readLoop_spec hshape.holes ((mem_gathered h.toPlaced hb hroom).2 c hc hid) hid
    (mem_occupants.mp hc).2 (count_gathered h.toPlaced hb hroom) r blk
  refine ⟨len, c, hc, hid, ?_, ?_⟩
  · rw [hwrite, hread]
    rfl
  · refine ⟨?_, hshape.pos, hshape.le, holesFrom_map_relabel hshape.holes⟩
    change ((s.gathered bid).map _).length = _
    rw [List.length_map]
    exact hshape.length

omit h hb in
theorem accessed_shape {pos : Bid} {length_st' : Nat} (hshape : StashShape (s.relabelled bid pos length_st')) :
    StashShape { s.accessed bid pos with length_st := length_st' } := by
  refine ⟨?_, hshape.pos, hshape.le, ?_⟩
  · change (rebuild _ _ _ _ _ _).2.length = _
    rw [length_rebuild_snd]
    exact hshape.length
  · exact HolesFrom.rebuild (fun b => b.real_erase) hshape.holes _ _ _

/-- Path and stash when the routines of one controller went through. -/
theorem pushPath_rebuilt (pos : Bid) (length_st' : Nat) :
    pushPath { s.relabelled bid pos length_st' with stash := (s.rebuilt bid pos).2 } (s.rebuilt bid pos).1
      (s.pos_map bid).val = { s.accessed bid pos with length_st := length_st' } := by
  unfold pushPath
  rw [pathBuckets_eq (leaf_lt h.toPlaced hb)]
  rfl

end Stages

/-- `OAccess` is the access in terms of slots, compressed if the sketch compresses. -/
theorem OAccess_spec {s : State L} (h : WellFormed s) {index : Nat} (hb : L.block index < L.nBlock)
    (hload : s.load (L.block index) ≤ 100) (r : Int) (blk : Block L.bytes) :
    ∃ length_st', ∃ c ∈ s.copies, c.blockID.val = L.block index ∧
      StashShape { s.accessed (L.block index) (drawLeaf L r) with length_st := length_st' } ∧
      OAccess s index r blk =
        (let t := { s.accessed (L.block index) (drawLeaf L r) with length_st := length_st' }
          if L.needComStash then OCompressStash t else t, { c with pos := drawLeaf L r }, true) := by
  obtain ⟨len, c, hc, hid, hread, hshape⟩ := write_read_spec h hb (show 0 < PACE_STASH by decide)
    (by rw [PACE_STASH, MAX_STASH_NUM]; omega) r blk
  have hbid : (toBid (L.block index)).val = L.block index := by
    rw [toBid_val]
    have := h.toPlaced.lt_dummy hb
    omega
  refine ⟨len, c, hc, hid, accessed_shape hshape, ?_⟩
  have hpush := pushPath_rebuilt h hb (drawLeaf L r) len
  unfold OAccess
  rw [hbid]
  simp only [lookUpLine_eq s.pos_map hb, OWriteToStash_eq, OReadFromStash_eq, hread]
  rw [ORebuildStash_spec hshape.holes]
  cases L.needComStash
  · simp only [Bool.false_eq_true, if_false]
    rw [← hpush]
    rfl
  · simp only [if_true]
    rw [← hpush]
    rfl

/-! ## Runs of `OAccess` -/

/-- A call of `OAccess`: `rand` is what `rand` returns, `buffer` what `Block` holds on entry. -/
structure Request (L : Layout) where
  index : Nat
  rand : Int
  buffer : Block L.bytes

def Request.run {L : Layout} (s : State L) (q : Request L) : State L × Block L.bytes × Bool :=
  OAccess s q.index q.rand q.buffer

def State.runAll (s : State L) (reqs : List (Request L)) : State L := reqs.foldl (fun s q => (q.run s).1) s

/-- One call keeps the sketch well formed and every payload, and delivers the block. -/
theorem run_spec {s : State L} (h : WellFormed s) (q : Request L) (hb : L.block q.index < L.nBlock)
    (hload : s.load (L.block q.index) ≤ 100) :
    WellFormed (q.run s).1 ∧ (∀ b < L.nBlock, (q.run s).1.payload b = s.payload b) ∧
      (q.run s).2.2 = true ∧ (q.run s).2.1.blockID.val = L.block q.index ∧
      s.payload (L.block q.index) = some (q.run s).2.1.data := by
  obtain ⟨len, c, hc, hid, hshape, heq⟩ := OAccess_spec h hb hload q.rand q.buffer
  have hroom : s.load (L.block q.index) ≤ s.stash.length := by
    rw [h.length, MAX_STASH_NUM]
    omega
  have hplaced := accessed_placed h.toPlaced hb hroom (drawLeaf_lt L q.rand)
  have hlen : Placed { s.accessed (L.block q.index) (drawLeaf L q.rand) with length_st := len } :=
    hplaced.of_stash_perm (List.Perm.refl _) rfl rfl
  have hpayload : ∀ b < L.nBlock, State.payload { s.accessed (L.block q.index) (drawLeaf L q.rand) with
      length_st := len } b = s.payload b := fun b hlt => accessed_payload h.toPlaced hb hroom (drawLeaf_lt L q.rand) hlt
  unfold Request.run
  rw [heq]
  refine ⟨?_, ?_, rfl, hid, ?_⟩
  · cases L.needComStash with
    | false => exact ⟨hshape, hlen⟩
    | true => exact ⟨OCompressStash_shape hshape, hlen.of_stash_perm (OCompressStash_perm _) rfl rfl⟩
  · intro b hlt
    cases L.needComStash with
    | false => exact hpayload b hlt
    | true => exact (payload_of_stash_perm hlen (OCompressStash_perm _) rfl rfl hlt).trans (hpayload b hlt)
  · rw [← hid]
    exact h.toPlaced.payload_eq hc (by rwa [hid])

/-- Before each call of the run the index is valid and at most `bound` real blocks come together. -/
def Bounded (bound : Nat) (s : State L) (reqs : List (Request L)) : Prop :=
  ∀ pre q post, reqs = pre ++ q :: post →
    L.block q.index < L.nBlock ∧ (s.runAll pre).load (L.block q.index) ≤ bound

theorem Bounded.tail {bound : Nat} {s : State L} {q : Request L} {reqs : List (Request L)}
    (h : Bounded bound s (q :: reqs)) : Bounded bound (q.run s).1 reqs := by
  intro pre p post he
  exact h (q :: pre) p post (by rw [he]; rfl)

theorem runAll_spec {s : State L} (h : WellFormed s) {reqs : List (Request L)} (hreqs : Bounded 100 s reqs) :
    WellFormed (s.runAll reqs) ∧ ∀ b < L.nBlock, (s.runAll reqs).payload b = s.payload b := by
  induction reqs generalizing s with
  | nil => exact ⟨h, fun b _ => rfl⟩
  | cons q reqs ih =>
    obtain ⟨hb, hload⟩ := hreqs [] q reqs rfl
    obtain ⟨hwf, hpay, -⟩ := run_spec h q hb hload
    obtain ⟨hwf', hpay'⟩ := ih hwf hreqs.tail
    exact ⟨hwf', fun b hlt => (hpay' b hlt).trans (hpay b hlt)⟩

theorem Bounded.of_append {bound : Nat} {s : State L} {pre post : List (Request L)}
    (h : Bounded bound s (pre ++ post)) : Bounded bound s pre := by
  intro a q b he
  exact h a q (b ++ post) (by rw [he, List.append_assoc, List.cons_append])

/-- **Every call of a run delivers its block** with the payload of the start, and every state on the way is well formed
with all payloads unchanged. -/
theorem OAccess_run {s : State L} (h : WellFormed s) (reqs : List (Request L)) (hreqs : Bounded 100 s reqs)
    (pre post : List (Request L)) (hsplit : reqs = pre ++ post) :
    WellFormed (s.runAll pre) ∧ (∀ b < L.nBlock, (s.runAll pre).payload b = s.payload b) ∧
      ∀ q rest, post = q :: rest →
        (q.run (s.runAll pre)).2.2 = true ∧ (q.run (s.runAll pre)).2.1.blockID.val = L.block q.index ∧
          s.payload (L.block q.index) = some (q.run (s.runAll pre)).2.1.data := by
  subst hsplit
  obtain ⟨hwf, hpay⟩ := runAll_spec h hreqs.of_append
  refine ⟨hwf, hpay, ?_⟩
  rintro q rest rfl
  obtain ⟨hb, hload⟩ := hreqs pre q rest rfl
  obtain ⟨-, -, hfound, hid, hdata⟩ := run_spec hwf q hb hload
  refine ⟨hfound, hid, ?_⟩
  rw [← hpay _ hb]
  exact hdata

/-! ## A sketch of two blocks -/

/-- Blocks `0` and `1` in the stash, for the left leaf. -/
def twoStashed : State (small 1 2) :=
  sketchOf (small 1 2) (List.replicate 3 [flat 1 2 DUMMY_FLAG 0 0]) [flat 1 2 0 0 7, flat 1 2 1 0 9] 5 fun _ => 0

theorem twoStashed_wellFormed : WellFormed twoStashed := by
  apply wellFormed_sketchOf <;> decide

theorem bounded_nil (bound : Nat) (s : State L) : Bounded bound s [] := by
  intro pre q post he
  simp at he

theorem Bounded.cons {bound : Nat} {s : State L} {q : Request L} {reqs : List (Request L)}
    (h : Bounded bound (q.run s).1 reqs) (hb : L.block q.index < L.nBlock) (hload : s.load (L.block q.index) ≤ bound) :
    Bounded bound s (q :: reqs) := by
  intro pre p post he
  cases pre with
  | nil =>
    obtain ⟨rfl, -⟩ := List.cons_eq_cons.mp he
    exact ⟨hb, hload⟩
  | cons a pre =>
    obtain ⟨rfl, hrest⟩ := List.cons_eq_cons.mp he
    exact h pre p post hrest

/-- Counter 5 of block 0 is read, and then counter 5 of block 1. -/
theorem OAccess_run_twoStashed :
    WellFormed (twoStashed.runAll [⟨5, 1, flat 1 2 0 0 0⟩]) ∧
      (∀ b < 2, (twoStashed.runAll [⟨5, 1, flat 1 2 0 0 0⟩]).payload b = twoStashed.payload b) ∧
      ∀ q rest, [(⟨17, 0, flat 1 2 0 0 3⟩ : Request (small 1 2))] = q :: rest →
        (q.run (twoStashed.runAll [⟨5, 1, flat 1 2 0 0 0⟩])).2.2 = true ∧
          (q.run (twoStashed.runAll [⟨5, 1, flat 1 2 0 0 0⟩])).2.1.blockID.val = (small 1 2).block q.index ∧
          twoStashed.payload ((small 1 2).block q.index) =
            some (q.run (twoStashed.runAll [⟨5, 1, flat 1 2 0 0 0⟩])).2.1.data := by
  have hlast : Bounded 100 (twoStashed.runAll [⟨5, 1, flat 1 2 0 0 0⟩]) [(⟨17, 0, flat 1 2 0 0 3⟩ : Request (small 1 2))] :=
    (bounded_nil _ _).cons (by decide) (by decide +kernel)
  exact OAccess_run twoStashed_wellFormed [⟨5, 1, flat 1 2 0 0 0⟩, ⟨17, 0, flat 1 2 0 0 3⟩]
    (hlast.cons (by decide) (by decide +kernel)) [⟨5, 1, flat 1 2 0 0 0⟩] _ rfl

end FOSketch.Oram
