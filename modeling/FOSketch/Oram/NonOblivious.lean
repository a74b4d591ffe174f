import FOSketch.Oram.Cursor

/-!
# `access` against `OAccess`

A block that `writeToStash` drops is gone: its bucket was read and is overwritten. If it is the block that is asked for,
`readFromStash` puts a zero block in its place. So `access` agrees with `OAccess` exactly when every dropped block is
the accessed one with nothing but zeros (`access_eq_OAccess_iff`).
-/

namespace FOSketch.Oram

open Slots

variable {L : Layout}

theorem byteAt_zero (b p : Bid) (i : Nat) : byteAt L ⟨b, p, fun _ => 0⟩ i = 0 := by
  unfold byteAt
  dsimp only
  split_ifs <;> rfl

section Access
variable {s : State L} (h : WellFormed s) {index : Nat} (hC : L.sketchType = .C) (hb : L.block index < L.nBlock)
  (hload : s.load (L.block index) ≤ 90)
include h hC hb

omit h hb in
theorem nRecord_of_C : L.nRecord = L.bytes := by
  unfold Layout.nRecord Layout.elemSize
  rw [hC]
  exact Nat.div_one _

def State.path (s : State L) (index : Nat) : List (List (Block L.bytes)) := readPath s (s.pos_map (L.block index)).val

theorem access_of_read {r : Int} {blk blk' : Block L.bytes} {w : State L} {found : Bool}
    (hread : readFromStash (writeToStash s (s.path index)) (L.block index) r blk = (w, blk', found))
    (hholes : HolesFrom Block.real w.length_st w.stash) (htree : w.OblivSK = s.OblivSK) :
    ((access s index r blk).1.copies ++ occupants Block.real (s.path index).flatten).Perm
        (occupants Block.real s.OblivSK.flatten ++ occupants Block.real w.stash) ∧
      (access s index r blk).1.pos_map = w.pos_map ∧
      (access s index r blk).2 = if found then (byteAt L blk' (index % L.nRecord)).val else 0 := by
  let q := onPath L.level w.pos_map (s.pos_map (L.block index)).val (n := L.bytes)
  have haccess : access s index r blk =
      ({ w with
          OblivSK := writeAt s.OblivSK (pathTo L.level (s.pos_map (L.block index)).val)
            (rebuild Block.real Block.erase q 0 (cleared (s.path index)) w.stash).1
          stash := (rebuild Block.real Block.erase q 0 (cleared (s.path index)) w.stash).2 },
        if found then (byteAt L blk' (index % L.nRecord)).val else 0) := by
    unfold access
    dsimp only
    rw [block_wrap h hC hb, ← block_of_C hC]
    unfold State.path at hread
    rw [hread]
    dsimp only
    rw [rebuildStash_spec hholes]
    unfold pushPath
    rw [pathBuckets_eq (leaf_lt h.toPlaced hb)]
    dsimp only
    rw [htree]
    rfl
  have hcopies := refill_copies h.toPlaced hb q w.stash
  rw [haccess]
  refine ⟨?_, rfl, rfl⟩
  unfold State.copies
  rw [occupants_append]
  exact hcopies

include hload

omit hC hb in
theorem occupants_keptSlots :
    (occupants Block.real (insertAll Block.real (s.kept (s.path index)) s.stash)).Perm
      (s.kept (s.path index) ++ occupants Block.real s.stash) := by
  have hperm : (occupants Block.real (insertAll Block.real (s.kept (s.path index)) s.stash)).Perm
      (occupants Block.real (s.kept (s.path index)) ++ occupants Block.real s.stash) := by
    apply occupants_insertAll
    rw [occupants_kept, h.length, MAX_STASH_NUM]
    have hle : (s.kept (s.path index)).length ≤ (occupants Block.real (s.path index).flatten).length :=
      List.length_take_le' _ _
    unfold State.path at hle ⊢
    unfold State.load at hload
    omega
  rwa [occupants_kept] at hperm

omit hC in
/-- The copies of `bid` in the stash after the write, and among the dropped blocks. -/
theorem count_keptSlots :
    ((insertAll Block.real (s.kept (s.path index)) s.stash).map fun c => c.blockID.val).count (L.block index) +
      ((s.dropped (s.path index)).map fun c => c.blockID.val).count (L.block index) = 1 := by
  have hone := count_path_stash h.toPlaced hb
  rw [count_occupants (h.lt_dummy hb), ((occupants_keptSlots h hload).map _).count_eq, List.map_append, List.count_append]
  change ((occupants Block.real (s.path index).flatten).map _).count _ + _ = 1 at hone
  rw [← kept_append_dropped s, List.map_append, List.count_append] at hone
  omega

omit h hC hb in
theorem path_load : (occupants Block.real (s.path index).flatten).length + (occupants Block.real s.stash).length ≤ 90 := by
  unfold State.load at hload
  unfold State.path
  omega

/-- The accessed block was not dropped: it is delivered, and nothing is lost but the dropped blocks. -/
theorem access_kept (hne : ∀ c ∈ s.dropped (s.path index), c.blockID.val ≠ L.block index) (r : Int)
    (blk : Block L.bytes) : ∃ c ∈ s.copies, c.blockID.val = L.block index ∧
      ((access s index r blk).1.copies ++ s.dropped (s.path index)).Perm
        (s.copies.map (relabel (L.block index) (drawLeaf L r))) ∧
      (access s index r blk).1.pos_map = Function.update s.pos_map (L.block index) (drawLeaf L r) ∧
      (access s index r blk).2 = (byteAt L c (index % L.nRecord)).val := by
  obtain ⟨len, hwrite, hshape, -⟩ := writeToStash_spec h.toStashShape (path_load hload)
  obtain ⟨rest, hrest, hrest_ne⟩ := off_path h.toPlaced hb
  have hcount := count_keptSlots h hb hload
  rw [count_id_eq_zero hne, Nat.add_zero] at hcount
  obtain ⟨c, hc, hid⟩ := exists_of_count_id (Nat.lt_of_lt_of_eq Nat.one_pos hcount.symm)
  have hreal : c.real = true := real_of_lt h.toPlaced (by rwa [hid])
  have hread : readFromStash (writeToStash s (s.path index)) (L.block index) r blk =
      ({ s with
          stash := (insertAll Block.real (s.kept (s.path index)) s.stash).map (relabel (L.block index) (drawLeaf L r))
          length_st := len
          pos_map := Function.update s.pos_map (L.block index) (drawLeaf L r) },
        { c with pos := drawLeaf L r }, true) := by
    rw [hwrite]
    exact readFromStash_spec hshape.holes hc hid hreal hcount r blk
  obtain ⟨hcopies, hmap, hbyte⟩ := access_of_read h hC hb hread (holesFrom_map_relabel hshape.holes) rfl
  have hkept := occupants_keptSlots h hload
  have htree : (occupants Block.real _).Perm (occupants Block.real _) := occupants_perm hrest
  rw [occupants_append] at htree
  change (occupants Block.real (s.path index).flatten ++ _).Perm _ at htree
  refine ⟨c, ?_, hid, ?_, hmap, hbyte⟩
  · have hmem := hkept.mem_iff.mp (mem_occupants.mpr ⟨hc, hreal⟩)
    unfold State.copies
    rw [occupants_append, List.mem_append, ← htree.mem_iff, List.mem_append, ← kept_append_dropped s, List.mem_append]
    rcases List.mem_append.mp hmem with hm | hm
    · exact Or.inl (Or.inl (Or.inl hm))
    · exact Or.inr hm
  · have hrel_rest := map_relabel_of_ne (drawLeaf L r) hrest_ne
    have hrel_drop := map_relabel_of_ne (drawLeaf L r) hne
    have hkeptmap := hkept.map (relabel (L.block index) (drawLeaf L r))
    have htreemap := htree.map (relabel (L.block index) (drawLeaf L r))
    rw [occupants_map_relabel] at hcopies
    unfold State.copies at hcopies ⊢
    rw [← kept_append_dropped s] at hcopies htree htreemap
    simp only [occupants_append, List.map_append, hrel_rest, hrel_drop] at hcopies htree hkeptmap htreemap ⊢
    rw [List.perm_iff_count]
    intro d
    have h1 := hcopies.count_eq d
    have h2 := htree.count_eq d
    have h3 := hkeptmap.count_eq d
    have h4 := htreemap.count_eq d
    simp only [List.count_append] at h1 h2 h3 h4 ⊢
    omega

omit hC in
/-- A write that dropped a block left no dummy in sight. -/
theorem readFromStash_dropped {c : Block L.bytes} (hc : c ∈ s.dropped (s.path index))
    (hid : c.blockID.val = L.block index) (hbytes : L.nRecord = L.bytes) (r : Int) (blk : Block L.bytes) :
    ∃ (rest : List (Block L.bytes)) (len : Nat),
      readFromStash (writeToStash s (s.path index)) (L.block index) r blk =
        ({ s with
            stash := occupants Block.real (insertAll Block.real (s.kept (s.path index)) s.stash) ++
              ⟨toBid (L.block index), drawLeaf L r, fun _ => 0⟩ :: rest
            length_st := len
            pos_map := Function.update s.pos_map (L.block index) (drawLeaf L r) },
          ⟨toBid (L.block index), drawLeaf L r, fun _ => 0⟩, true) ∧ (∀ t ∈ rest, t.real = false) ∧
      HolesFrom Block.real len (occupants Block.real (insertAll Block.real (s.kept (s.path index)) s.stash) ++
        ⟨toBid (L.block index), drawLeaf L r, fun _ => 0⟩ :: rest) := by
  obtain ⟨len, hwrite, hshape, hfull⟩ := writeToStash_spec h.toStashShape (path_load hload)
  have hfull := hfull (List.ne_nil_of_mem hc)
  have hkept := occupants_keptSlots h hload
  have hnone : ∀ d ∈ insertAll Block.real (s.kept (s.path index)) s.stash, d.blockID.val ≠ L.block index := by
    have hcount := count_keptSlots h hb hload
    have hpos := count_id_of_mem hc
    rw [hid] at hpos
    intro d hd he
    have hpos' := count_id_of_mem hd
    rw [he] at hpos'
    omega
  have hseen := hshape.holes.take_eq hfull
  have hlen : (insertAll Block.real (s.kept (s.path index)) s.stash).length = MAX_STASH_NUM := hshape.length
  have hle : len ≤ MAX_STASH_NUM := hshape.le
  have hpos : DEFAULT_STASH_LENGTH ≤ len := hshape.pos
  dsimp only at hseen
  generalize insertAll Block.real (s.kept (s.path index)) s.stash = slots at *
  have hocc : (occupants Block.real slots).length = len := by
    rw [← hseen, List.length_take, hlen, min_eq_left hle]
  -- the stash holds at most 90 blocks, so there is a slot out of sight
  have hroom : len + 8 ≤ MAX_STASH_NUM := by
    have hload := path_load hload
    have htake : (s.kept (s.path index)).length ≤ (occupants Block.real (s.path index).flatten).length :=
      List.length_take_le' _ _
    have hsum := hkept.length_eq
    rw [hocc, List.length_append] at hsum
    rw [MAX_STASH_NUM]
    omega
  obtain ⟨d, rest, hdrop⟩ := List.exists_cons_of_length_pos (l := slots.drop len) (by rw [List.length_drop, hlen]; omega)
  have hholes : ∀ t ∈ d :: rest, t.real = false := by
    rw [← hdrop]
    exact hshape.holes
  have hzero : zeroBlock L.nRecord (L.block index) (drawLeaf L r) d =
      ⟨toBid (L.block index), drawLeaf L r, fun _ => 0⟩ := by
    unfold zeroBlock
    congr 1
    funext j
    rw [hbytes, if_pos j.isLt]
  refine ⟨rest, len + 8, ?_, fun t ht => hholes t (List.mem_cons_of_mem d ht), ?_⟩
  · rw [hwrite, ← hzero, ← hseen]
    exact readFromStash_missing hnone hfull (lt_of_lt_of_le (by decide) hpos) hroom hdrop (hholes d List.mem_cons_self) r blk
  · have hlast := holesFrom_append (l := occupants Block.real slots ++
      [⟨toBid (L.block index), drawLeaf L r, fun _ => 0⟩]) fun t ht => hholes t (List.mem_cons_of_mem d ht)
    rw [List.append_assoc, List.length_append, hocc] at hlast
    exact hlast.mono (by rw [List.length_singleton]; omega)

/-- The accessed block was dropped: a zero block takes its place. -/
theorem access_dropped {c : Block L.bytes} (hc : c ∈ s.dropped (s.path index)) (hid : c.blockID.val = L.block index)
    (r : Int) (blk : Block L.bytes) :
    ((access s index r blk).1.copies ++ s.dropped (s.path index)).Perm
        (⟨toBid (L.block index), drawLeaf L r, fun _ => 0⟩ :: s.copies) ∧
      (access s index r blk).1.pos_map = Function.update s.pos_map (L.block index) (drawLeaf L r) ∧
      (access s index r blk).2 = 0 := by
  obtain ⟨rest, len, hread, hrest, hholes⟩ := readFromStash_dropped h hb hload hc hid (nRecord_of_C hC) r blk
  have hkept := occupants_keptSlots h hload
  have hz : (⟨toBid (L.block index), drawLeaf L r, fun _ => 0⟩ : Block L.bytes).real = true := by
    apply real_of_lt h.toPlaced
    have := h.toPlaced.lt_dummy hb
    rw [toBid_val]
    omega
  obtain ⟨hcopies, hmap, hbyte⟩ := access_of_read h hC hb hread hholes rfl
  refine ⟨?_, hmap, ?_⟩
  · rw [occupants_append, occupants_of_full fun _ ht => (mem_occupants.mp ht).2, occupants_cons_real hz,
      occupants_of_holes hrest, ← kept_append_dropped s] at hcopies
    unfold State.copies at hcopies ⊢
    simp only [occupants_append] at hcopies ⊢
    rw [List.perm_iff_count]
    intro t
    have h1 := hcopies.count_eq t
    have h2 := hkept.count_eq t
    simp only [List.count_append, List.count_cons, List.count_nil] at h1 h2 ⊢
    omega
  · rw [hbyte, if_pos rfl]
    rw [byteAt_zero]
    rfl

end Access

/-- What both controllers should agree on: the byte, the position map, one copy of every id, and the payloads. -/
def Agrees (s : State L) (a : State L × Nat) (o : State L × Byte) : Prop :=
  a.2 = o.2.val ∧ a.1.pos_map = o.1.pos_map ∧
    ∀ b < L.nBlock, (a.1.copies.map fun c => c.blockID.val).count b = 1 ∧ a.1.payload b = s.payload b

/-- The blocks that may be dropped: those with no id of the sketch, and the accessed one if it holds only zeros. -/
def Droppable (L : Layout) (index : Nat) (c : Block L.bytes) : Prop :=
  c.blockID.val < L.nBlock → c.blockID.val = L.block index ∧ c.data = fun _ => 0

section Agree
variable {s : State L} (h : WellFormed s) (hC : L.sketchType = .C) {index : Nat} (hb : L.block index < L.nBlock)
  (hload : s.load (L.block index) ≤ 90)
include h hC hb hload

theorem agrees_of_kept (hne : ∀ c ∈ s.dropped (s.path index), c.blockID.val ≠ L.block index) (r : Int)
    (blk : Block L.bytes) {o : State L × Byte} (ho : Accesses s index r o) :
    Agrees s (access s index r blk) o ↔ ∀ c ∈ s.dropped (s.path index), Droppable L index c := by
  obtain ⟨c, hc, hid, hcopies, hmap, hbyte⟩ := access_kept h hC hb hload hne r blk
  obtain ⟨halike, -, data, hdata, hobyte⟩ := ho
  have hcount : ∀ b < L.nBlock, ((access s index r blk).1.copies.map fun c => c.blockID.val).count b +
      ((s.dropped (s.path index)).map fun c => c.blockID.val).count b = 1 := by
    intro b hlt
    rw [← List.count_append, ← List.map_append, (hcopies.map _).count_eq, List.map_map,
      ← h.toPlaced.one_copy b hlt]
    congr 1
    exact List.map_congr_left fun d _ => by rw [Function.comp_apply, relabel_blockID]
  constructor
  · rintro ⟨-, -, hall⟩ d hd hlt
    have h1 := hcount _ hlt
    have h2 := (hall _ hlt).1
    have h3 := count_id_of_mem hd
    omega
  · intro hdrop
    have hnone : ∀ b < L.nBlock, ∀ d ∈ s.dropped (s.path index), d.blockID.val ≠ b := by
      rintro b hlt d hd rfl
      exact hne d hd (hdrop d hd hlt).1
    refine ⟨?_, hmap.trans halike.pos_map, fun b hlt => ?_⟩
    · rw [← hid, h.toPlaced.payload_eq hc (by rwa [hid]), Option.some.injEq] at hdata
      rw [hbyte, hobyte, ← hdata]
      rfl
    · have hone : ((access s index r blk).1.copies.map fun c => c.blockID.val).count b = 1 := by
        have := hcount b hlt
        rw [count_id_eq_zero (hnone b hlt)] at this
        omega
      refine ⟨hone, ?_⟩
      obtain ⟨d, hd, rfl⟩ := exists_copy h.toPlaced hlt
      have hmem : relabel (L.block index) (drawLeaf L r) d ∈ (access s index r blk).1.copies := by
        have := hcopies.mem_iff.mpr (List.mem_map_of_mem hd)
        rcases List.mem_append.mp this with hm | hm
        · exact hm
        · exact absurd (relabel_blockID _ _ d ▸ rfl) (hnone _ hlt _ hm)
      rw [h.toPlaced.payload_eq hd hlt]
      have := payload_of_count_one hmem (by rwa [relabel_blockID])
      rwa [relabel_blockID, relabel_data] at this

omit hC hload in
theorem mem_copies_of_dropped {d : Block L.bytes} (hd : d ∈ s.dropped (s.path index)) : d ∈ s.copies := by
  obtain ⟨rest, hrest, -⟩ := off_path h.toPlaced hb
  have htree : (occupants Block.real _).Perm (occupants Block.real _) := occupants_perm hrest
  unfold State.copies
  rw [occupants_append, List.mem_append, ← htree.mem_iff, occupants_append, List.mem_append]
  exact Or.inl (Or.inl (List.mem_of_mem_drop hd))

section Dropped
variable {c : Block L.bytes} (hc : c ∈ s.dropped (s.path index)) (hid : c.blockID.val = L.block index) (r : Int)
  (blk : Block L.bytes)
include hc hid

/-- The accessed id is stored twice, with the zero block and the dropped one. -/
theorem count_access_dropped {b : Nat} (hlt : b < L.nBlock) :
    ((access s index r blk).1.copies.map fun c => c.blockID.val).count b +
      ((s.dropped (s.path index)).map fun c => c.blockID.val).count b = if b = L.block index then 2 else 1 := by
  obtain ⟨hcopies, -, -⟩ := access_dropped h hC hb hload hc hid r blk
  have hbid : (toBid (L.block index)).val = L.block index := by
    have := h.toPlaced.lt_dummy hb
    rw [toBid_val]
    omega
  rw [← List.count_append, ← List.map_append, (hcopies.map _).count_eq, List.map_cons, List.count_cons,
    h.toPlaced.one_copy b hlt, hbid]
  by_cases he : b = L.block index
  · rw [if_pos he, he, beq_self_eq_true, if_pos rfl]
  · rw [if_neg he, beq_eq_false_iff_ne.mpr (Ne.symm he), if_neg Bool.false_ne_true]

/-- What `access` can have stored under the accessed id. -/
theorem access_dropped_block {e : Block L.bytes} (he : e ∈ (access s index r blk).1.copies)
    (heid : e.blockID.val = L.block index) : e = ⟨toBid (L.block index), drawLeaf L r, fun _ => 0⟩ ∨ e = c := by
  obtain ⟨hcopies, -, -⟩ := access_dropped h hC hb hload hc hid r blk
  rcases List.mem_cons.mp (hcopies.mem_iff.mp (List.mem_append_left _ he)) with rfl | hm
  · exact Or.inl rfl
  · exact Or.inr (eq_of_count_one (h.toPlaced.one_copy _ hb) hm (mem_copies_of_dropped h hb hc) heid hid)

/-- The dropped block is stored again only if it is the zero block. -/
theorem data_of_stored_again (hstored : c ∈ (access s index r blk).1.copies) : c.data = fun _ => 0 := by
  obtain ⟨hcopies, -, -⟩ := access_dropped h hC hb hload hc hid r blk
  have hcount := hcopies.count_eq c
  rw [List.count_append, List.count_cons] at hcount
  have hle : s.copies.count c ≤ 1 := by
    rw [← h.toPlaced.one_copy _ hb, ← hid]
    exact List.count_le_count_map (f := fun d : Block L.bytes => d.blockID.val)
  have hpos := List.count_pos_iff.mpr hstored
  have hpos' := List.count_pos_iff.mpr hc
  split_ifs at hcount with hz
  · rw [← beq_iff_eq.mp hz]
  · omega

/-- If one copy of every id is left with its payload, only a zero block was dropped. -/
theorem droppable_of_agrees (hall : ∀ b < L.nBlock,
    ((access s index r blk).1.copies.map fun c => c.blockID.val).count b = 1 ∧
      (access s index r blk).1.payload b = s.payload b) :
    ∀ d ∈ s.dropped (s.path index), Droppable L index d := by
  intro d hd hlt
  obtain ⟨hone, hpayload⟩ := hall _ hlt
  have hcount := count_access_dropped h hC hb hload hc hid r blk hlt
  have hpos := count_id_of_mem hd
  have hdid : d.blockID.val = L.block index := by
    by_contra hne
    rw [if_neg hne] at hcount
    omega
  refine ⟨hdid, ?_⟩
  obtain rfl : d = c := eq_of_count_one (h.toPlaced.one_copy _ hb) (mem_copies_of_dropped h hb hd)
    (mem_copies_of_dropped h hb hc) hdid hid
  obtain ⟨e, he, heid⟩ := exists_of_count_id (Nat.lt_of_lt_of_eq Nat.one_pos hone.symm)
  have hpay := payload_of_count_one he (by rw [heid]; exact hone)
  rw [heid, hpayload, h.toPlaced.payload_eq (mem_copies_of_dropped h hb hd) hlt, Option.some.injEq] at hpay
  rcases access_dropped_block h hC hb hload hc hid r blk he (heid.trans hdid) with rfl | rfl
  · exact hpay
  · exact data_of_stored_again h hC hb hload hc hid r blk he

/-- If only the accessed block was dropped, and it held zeros, the zero block replaces it. -/
theorem agrees_of_droppable (hdrop : ∀ d ∈ s.dropped (s.path index), Droppable L index d) {o : State L × Byte}
    (ho : Accesses s index r o) : Agrees s (access s index r blk) o := by
  obtain ⟨hcopies, hmap, hbyte⟩ := access_dropped h hC hb hload hc hid r blk
  obtain ⟨halike, -, data, hdata, hobyte⟩ := ho
  have hzero := (hdrop c hc (by rwa [hid])).2
  have hpayc := h.toPlaced.payload_eq (mem_copies_of_dropped h hb hc) (by rwa [hid])
  rw [hid, hzero] at hpayc
  have hone : ∀ b < L.nBlock, ((access s index r blk).1.copies.map fun c => c.blockID.val).count b = 1 := by
    intro b hlt
    have hcount := count_access_dropped h hC hb hload hc hid r blk hlt
    by_cases he : b = L.block index
    · rw [if_pos he] at hcount
      have hkept := count_keptSlots h hb hload
      have hpos := count_id_of_mem hc
      rw [he] at hcount ⊢
      rw [hid] at hpos
      omega
    · have hnone : ∀ d ∈ s.dropped (s.path index), d.blockID.val ≠ b := by
        rintro d hd rfl
        exact he (hdrop d hd hlt).1
      rw [if_neg he, count_id_eq_zero hnone] at hcount
      omega
  refine ⟨?_, hmap.trans halike.pos_map, fun b hlt => ⟨hone b hlt, ?_⟩⟩
  · rw [hpayc, Option.some.injEq] at hdata
    rw [hbyte, hobyte, ← hdata, byteAt_zero]
    rfl
  · by_cases he : b = L.block index
    · obtain ⟨e, hemem, heid⟩ := exists_of_count_id (Nat.lt_of_lt_of_eq Nat.one_pos (hone b hlt).symm)
      have hdata0 : e.data = fun _ => 0 := by
        rcases access_dropped_block h hC hb hload hc hid r blk hemem (heid.trans he) with rfl | rfl
        · rfl
        · exact hzero
      have hpay := payload_of_count_one hemem (by rw [heid]; exact hone b hlt)
      rw [heid, hdata0] at hpay
      rw [hpay, he, hpayc]
    · obtain ⟨d, hd, rfl⟩ := exists_copy h.toPlaced hlt
      have hmem : d ∈ (access s index r blk).1.copies := by
        rcases List.mem_append.mp (hcopies.mem_iff.mpr (List.mem_cons_of_mem _ hd)) with hm | hm
        · exact hm
        · exact absurd (hdrop d hm hlt).1 he
      rw [payload_of_count_one hmem (hone _ hlt), h.toPlaced.payload_eq hd hlt]

theorem agrees_of_dropped {o : State L × Byte} (ho : Accesses s index r o) :
    Agrees s (access s index r blk) o ↔ ∀ c ∈ s.dropped (s.path index), Droppable L index c :=
  ⟨fun hagree => droppable_of_agrees h hC hb hload hc hid r blk hagree.2.2,
    fun hdrop => agrees_of_droppable h hC hb hload hc hid r blk hdrop ho⟩

end Dropped

end Agree

/-- **`access` agrees with `OAccess`** if and only if every block that `writeToStash` drops may be dropped. -/
theorem access_eq_OAccess_iff {s : State L} (h : WellFormed s) (hC : L.sketchType = .C) (hcom : L.needComStash = false)
    {index : Nat} (hb : L.block index < L.nBlock) (hload : s.load (L.block index) ≤ 90) (r : Int)
    (blk blk' : Block L.bytes) :
    Agrees s (access s index r blk) (OAccess_byte s index r blk') ↔
      ∀ c ∈ s.dropped (s.path index), Droppable L index c := by
  have hO := OAccess_byte_spec h hb hcom (by omega) r blk'
  by_cases hdrop : ∃ c ∈ s.dropped (s.path index), c.blockID.val = L.block index
  · obtain ⟨c, hc, hid⟩ := hdrop
    exact agrees_of_dropped h hC hb hload hc hid r blk hO
  · push Not at hdrop
    exact agrees_of_kept h hC hb hload hdrop r blk hO

theorem access_eq_OAccess_iff_twoStashed :
    Agrees twoStashed (access twoStashed 5 1 (flat 1 2 0 0 0)) (OAccess_byte twoStashed 5 1 (flat 1 2 0 0 0)) ↔
      ∀ c ∈ twoStashed.dropped (twoStashed.path 5), Droppable (small 1 2) 5 c :=
  access_eq_OAccess_iff twoStashed_wellFormed rfl rfl (by decide) (by decide +kernel) 1 _ _

/-! ### A path of six blocks and an empty stash -/

/-- Blocks `0` to `5` on the left path, block `b` with counters `b + 1`. -/
def sixOnPath : State (small 3 6) :=
  sketchOf (small 3 6)
    [[flat 3 6 0 0 1, flat 3 6 1 0 2, flat 3 6 2 0 3], [flat 3 6 3 0 4, flat 3 6 4 0 5, flat 3 6 5 0 6],
      List.replicate 3 (flat 3 6 DUMMY_FLAG 0 0)]
    [] 5 fun _ => 0

theorem sixOnPath_wellFormed : WellFormed sixOnPath := by
  apply wellFormed_sketchOf <;> decide

/-- The five visible slots are dummies, the sixth block is lost. -/
theorem access_sixOnPath_ne :
    WellFormed sixOnPath ∧ sixOnPath.load 0 ≤ 90 ∧
      ¬ Agrees sixOnPath (access sixOnPath 0 0 (flat 3 6 0 0 0)) (OAccess_byte sixOnPath 0 0 (flat 3 6 0 0 0)) := by
  refine ⟨sixOnPath_wellFormed, by decide +kernel, ?_⟩
  rintro ⟨-, -, hall⟩
  have hzero : ((access sixOnPath 0 0 (flat 3 6 0 0 0)).1.copies.map fun c => c.blockID.val).count 5 = 0 := by
    decide +kernel
  have := (hall 5 (by decide)).1
  omega

end FOSketch.Oram
