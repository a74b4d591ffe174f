import FOSketch.Oram.Access

/-!
# The three controllers in lockstep

`OAccess_S` and `OAccess_F` look the leaf up in their own ways, grow the stash by 8 instead of `PACE_STASH` and copy by
`memcpy`. They are the same access in terms of slots (`access_SF_spec`), so from states that agree in tree, slots and
position map all three reach states that agree (`OAccess_lockstep`).
-/

namespace FOSketch.Oram

open Slots

variable {L : Layout}

/-! ## Agreement -/

/-- All but `length_st` is equal. -/
structure Alike (s t : State L) : Prop where
  stash : s.stash = t.stash
  tree : s.OblivSK = t.OblivSK
  pos_map : s.pos_map = t.pos_map

theorem Alike.refl (s : State L) : Alike s s := ⟨rfl, rfl, rfl⟩

theorem Alike.symm {s t : State L} (h : Alike s t) : Alike t s := ⟨h.stash.symm, h.tree.symm, h.pos_map.symm⟩

theorem Alike.trans {s t u : State L} (h : Alike s t) (h' : Alike t u) : Alike s u :=
  ⟨h.stash.trans h'.stash, h.tree.trans h'.tree, h.pos_map.trans h'.pos_map⟩

theorem Alike.eq_with {s t : State L} (h : Alike s t) : t = { s with length_st := t.length_st } := by
  obtain ⟨h1, h2, h3⟩ := h
  cases s
  cases t
  simp only at h1 h2 h3
  subst h1 h2 h3
  rfl

theorem Alike.load {s t : State L} (h : Alike s t) (bid : Nat) : t.load bid = s.load bid := by
  rw [h.eq_with]
  rfl

theorem Alike.payload {s t : State L} (h : Alike s t) (b : Nat) : t.payload b = s.payload b := by
  rw [h.eq_with]
  rfl

theorem Alike.placed {s t : State L} (h : Alike s t) (hs : Placed s) : Placed t :=
  hs.of_stash_perm (by rw [h.stash]) h.tree.symm h.pos_map.symm

/-- The access in terms of slots does not look at `length_st`. -/
theorem Alike.accessed {s t : State L} (h : Alike s t) (bid : Nat) (pos : Bid) :
    Alike (s.accessed bid pos) (t.accessed bid pos) := by
  rw [h.eq_with]
  exact ⟨rfl, rfl, rfl⟩

/-! ## One access of each controller -/

section Step
variable {s : State L} (h : WellFormed s) {index : Nat} (hC : L.sketchType = .C) (hb : L.block index < L.nBlock)
include h hC hb

omit h hb in
theorem block_of_C : L.block index = index / L.nRecord := by
  unfold Layout.block
  rw [hC]

theorem block_wrap : index / L.nRecord % 4294967296 = L.block index := by
  have := h.toPlaced.lt_dummy hb
  rw [← block_of_C hC]
  omega

/-- What an access of any controller does: it delivers `byteAt` of the block and leaves `accessed`. -/
def Accesses (s : State L) (index : Nat) (r : Int) (t : State L × Byte) : Prop :=
  Alike (s.accessed (L.block index) (drawLeaf L r)) t.1 ∧ StashShape t.1 ∧
    ∃ data, s.payload (L.block index) = some data ∧
      t.2 = byteAt L ⟨0, 0, data⟩ (index % L.nRecord)

omit hC in
theorem access_SF_spec (hload : s.load (L.block index) ≤ 98) (r : Int) (blk : Block L.bytes) :
    Accesses s index r
      (let leaf := (s.pos_map (L.block index)).val
        let Path := readPath s leaf
        let t := readLoop copyIf (writeLoop 8 copyIf s Path) (L.block index) r blk
        let u := rebuildLoop (fun i => fillPlaces (evictScan_SF (onPath L.level t.1.pos_map leaf i) false false)) t.1 Path
        (pushPath u.1 u.2 leaf, if t.2.2 then byteAt L t.2.1 (index % L.nRecord) else 255)) := by
  obtain ⟨len, c, hc, hid, hread, hshape⟩ := write_read_spec h hb (show 0 < 8 by decide)
    (by rw [MAX_STASH_NUM]; omega) r blk
  have hpush := pushPath_rebuilt h hb (drawLeaf L r) len
  simp only [hread]
  rw [rebuildStash_SF_spec hshape.holes]
  refine ⟨?_, ?_, c.data, ?_, ?_⟩
  · have halike : Alike (s.accessed (L.block index) (drawLeaf L r))
        { s.accessed (L.block index) (drawLeaf L r) with length_st := len } := ⟨rfl, rfl, rfl⟩
    rw [← hpush] at halike
    exact halike
  · have := accessed_shape hshape
    rw [← hpush] at this
    exact this
  · rw [← hid]
    exact h.toPlaced.payload_eq hc (by rwa [hid])
  · rfl

theorem OAccess_S_spec (hload : s.load (L.block index) ≤ 98) (r : Int) (blk : Block L.bytes) :
    Accesses s index r (OAccess_S s index r blk) := by
  have hspec := access_SF_spec h hb hload r blk
  unfold OAccess_S
  dsimp only
  rw [block_wrap h hC hb, ← block_of_C hC, lookUpAll_eq s.pos_map hb]
  exact hspec

theorem OAccess_F_spec (hload : s.load (L.block index) ≤ 98) (r : Int) (blk : Block L.bytes) :
    Accesses s index r (OAccess_F s index r blk) := by
  have hspec := access_SF_spec h hb hload r blk
  unfold OAccess_F
  dsimp only
  rw [block_wrap h hC hb, ← block_of_C hC, lookUpLine_eq s.pos_map hb]
  exact hspec

omit hC in
theorem OAccess_byte_spec (hcom : L.needComStash = false) (hload : s.load (L.block index) ≤ 100) (r : Int)
    (blk : Block L.bytes) : Accesses s index r (OAccess_byte s index r blk) := by
  obtain ⟨len, c, hc, hid, hshape, heq⟩ := OAccess_spec h hb hload r blk
  unfold OAccess_byte
  rw [heq, hcom]
  refine ⟨⟨rfl, rfl, rfl⟩, hshape, c.data, ?_, rfl⟩
  rw [← hid]
  exact h.toPlaced.payload_eq hc (by rwa [hid])

end Step

/-- Two accesses to states that agree lead to states that agree and deliver the same byte. -/
theorem Accesses.alike {s s' : State L} {index : Nat} {r : Int} {t t' : State L × Byte} (h : Alike s s')
    (ht : Accesses s index r t) (ht' : Accesses s' index r t') : Alike t.1 t'.1 ∧ t.2 = t'.2 := by
  obtain ⟨h1, -, d, hd, he⟩ := ht
  obtain ⟨h2, -, d', hd', he'⟩ := ht'
  refine ⟨h1.symm.trans ((h.accessed _ _).trans h2), ?_⟩
  rw [h.payload, hd, Option.some.injEq] at hd'
  rw [he, he', hd']

theorem Accesses.wellFormed {s : State L} {index : Nat} {r : Int} {t : State L × Byte} (h : WellFormed s)
    (hb : L.block index < L.nBlock) (hload : s.load (L.block index) ≤ 100) (ht : Accesses s index r t) :
    WellFormed t.1 := by
  have hroom : s.load (L.block index) ≤ s.stash.length := by
    rw [h.length, MAX_STASH_NUM]
    omega
  exact ⟨ht.2.1, ht.1.placed (accessed_placed h.toPlaced hb hroom (drawLeaf_lt L r))⟩

/-! ## Runs -/

/-- One access of the three controllers with one draw; the buffers hold what was in the three local arrays. -/
structure Shared (L : Layout) where
  index : Nat
  rand : Int
  buffer : Block L.bytes
  buffer_S : Block L.bytes
  buffer_F : Block L.bytes

structure Trio (L : Layout) where
  O : State L
  S : State L
  F : State L

structure Bytes where
  O : Byte
  S : Byte
  F : Byte

def Trio.step {L : Layout} (t : Trio L) (q : Shared L) : Trio L × Bytes :=
  let o := OAccess_byte t.O q.index q.rand q.buffer
  let s := OAccess_S t.S q.index q.rand q.buffer_S
  let f := OAccess_F t.F q.index q.rand q.buffer_F
  (⟨o.1, s.1, f.1⟩, ⟨o.2, s.2, f.2⟩)

def Trio.run {L : Layout} (t : Trio L) (reqs : List (Shared L)) : Trio L := reqs.foldl (fun t q => (t.step q).1) t

structure Trio.Agree (t : Trio L) : Prop where
  S : Alike t.O t.S
  F : Alike t.O t.F
  wellFormed_O : WellFormed t.O
  wellFormed_S : WellFormed t.S
  wellFormed_F : WellFormed t.F

theorem Trio.step_agree {t : Trio L} (h : t.Agree) (hC : L.sketchType = .C) (hcom : L.needComStash = false)
    {q : Shared L} (hb : L.block q.index < L.nBlock) (hload : t.O.load (L.block q.index) ≤ 98) :
    (t.step q).1.Agree ∧ (t.step q).2.S = (t.step q).2.O ∧ (t.step q).2.F = (t.step q).2.O := by
  have hload_S : t.S.load (L.block q.index) ≤ 98 := by rwa [h.S.load]
  have hload_F : t.F.load (L.block q.index) ≤ 98 := by rwa [h.F.load]
  have hO := OAccess_byte_spec h.wellFormed_O hb hcom (by omega) q.rand q.buffer
  have hS := OAccess_S_spec h.wellFormed_S hC hb hload_S q.rand q.buffer_S
  have hF := OAccess_F_spec h.wellFormed_F hC hb hload_F q.rand q.buffer_F
  obtain ⟨halike_S, hbyte_S⟩ := Accesses.alike h.S hO hS
  obtain ⟨halike_F, hbyte_F⟩ := Accesses.alike h.F hO hF
  refine ⟨⟨halike_S, halike_F, ?_, ?_, ?_⟩, hbyte_S.symm, hbyte_F.symm⟩
  · exact hO.wellFormed h.wellFormed_O hb (by omega)
  · exact hS.wellFormed h.wellFormed_S hb (by omega)
  · exact hF.wellFormed h.wellFormed_F hb (by omega)

/-- Before each access the index is valid and the blocks in stash and path of `OAccess` number at most `bound`. -/
def Trio.Bounded (bound : Nat) (t : Trio L) (reqs : List (Shared L)) : Prop :=
  ∀ pre q post, reqs = pre ++ q :: post →
    L.block q.index < L.nBlock ∧ (t.run pre).O.load (L.block q.index) ≤ bound

theorem Trio.run_agree {t : Trio L} (h : t.Agree) (hC : L.sketchType = .C) (hcom : L.needComStash = false)
    {reqs : List (Shared L)} (hreqs : t.Bounded 98 reqs) : (t.run reqs).Agree := by
  induction reqs generalizing t with
  | nil => exact h
  | cons q reqs ih =>
    obtain ⟨hb, hload⟩ := hreqs [] q reqs rfl
    apply ih (Trio.step_agree h hC hcom hb hload).1
    intro pre p post he
    exact hreqs (q :: pre) p post (by rw [he]; rfl)

/-- **The controllers stay in lockstep.** -/
theorem OAccess_lockstep (hC : L.sketchType = .C) (hcom : L.needComStash = false) {s : State L} (h : WellFormed s)
    (reqs : List (Shared L)) (hreqs : Trio.Bounded 90 ⟨s, s, s⟩ reqs) (pre post : List (Shared L))
    (hsplit : reqs = pre ++ post) :
    Alike ((⟨s, s, s⟩ : Trio L).run pre).O ((⟨s, s, s⟩ : Trio L).run pre).S ∧
      Alike ((⟨s, s, s⟩ : Trio L).run pre).O ((⟨s, s, s⟩ : Trio L).run pre).F ∧
      ∀ q rest, post = q :: rest →
        (((⟨s, s, s⟩ : Trio L).run pre).step q).2.S = (((⟨s, s, s⟩ : Trio L).run pre).step q).2.O ∧
          (((⟨s, s, s⟩ : Trio L).run pre).step q).2.F = (((⟨s, s, s⟩ : Trio L).run pre).step q).2.O := by
  subst hsplit
  have hstart : (⟨s, s, s⟩ : Trio L).Agree := ⟨Alike.refl s, Alike.refl s, h, h, h⟩
  have hpre : Trio.Bounded 98 ⟨s, s, s⟩ pre := by
    intro a q b he
    obtain ⟨hb, hload⟩ := hreqs a q (b ++ post) (by rw [he, List.append_assoc, List.cons_append])
    exact ⟨hb, by omega⟩
  have hagree := Trio.run_agree hstart hC hcom hpre
  refine ⟨hagree.S, hagree.F, ?_⟩
  rintro q rest rfl
  obtain ⟨hb, hload⟩ := hreqs pre q rest rfl
  exact (Trio.step_agree hagree hC hcom hb (by omega)).2

theorem Trio.bounded_nil (bound : Nat) (t : Trio L) : t.Bounded bound [] := by
  intro pre q post he
  simp at he

theorem Trio.Bounded.cons {bound : Nat} {t : Trio L} {q : Shared L} {reqs : List (Shared L)}
    (h : (t.step q).1.Bounded bound reqs) (hb : L.block q.index < L.nBlock) (hload : t.O.load (L.block q.index) ≤ bound) :
    t.Bounded bound (q :: reqs) := by
  intro pre p post he
  cases pre with
  | nil =>
    obtain ⟨rfl, -⟩ := List.cons_eq_cons.mp he
    exact ⟨hb, hload⟩
  | cons a pre =>
    obtain ⟨rfl, hrest⟩ := List.cons_eq_cons.mp he
    exact h pre p post hrest

def afterOne : Trio (small 1 2) :=
  (⟨twoStashed, twoStashed, twoStashed⟩ : Trio (small 1 2)).run [⟨17, 3, flat 1 2 0 0 0, flat 1 2 0 0 1, flat 1 2 0 0 2⟩]

/-- The second call is for block 0. -/
theorem OAccess_lockstep_twoStashed :
    Alike afterOne.O afterOne.S ∧ Alike afterOne.O afterOne.F ∧
      ∀ q rest, [(⟨5, 0, flat 1 2 0 0 3, flat 1 2 0 0 4, flat 1 2 0 0 5⟩ : Shared (small 1 2))] = q :: rest →
        (afterOne.step q).2.S = (afterOne.step q).2.O ∧ (afterOne.step q).2.F = (afterOne.step q).2.O := by
  have hlast : afterOne.Bounded 90 [⟨5, 0, flat 1 2 0 0 3, flat 1 2 0 0 4, flat 1 2 0 0 5⟩] :=
    (Trio.bounded_nil _ _).cons (by decide) (by decide +kernel)
  exact OAccess_lockstep rfl rfl twoStashed_wellFormed
    [⟨17, 3, flat 1 2 0 0 0, flat 1 2 0 0 1, flat 1 2 0 0 2⟩, ⟨5, 0, flat 1 2 0 0 3, flat 1 2 0 0 4, flat 1 2 0 0 5⟩]
    (hlast.cons (by decide) (by decide +kernel)) [⟨17, 3, flat 1 2 0 0 0, flat 1 2 0 0 1, flat 1 2 0 0 2⟩] _ rfl

end FOSketch.Oram
