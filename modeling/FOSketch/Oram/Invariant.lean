import FOSketch.Oram.Stash

/-!
# The invariant of a sketch

`accessed` is what an access is for, in terms of slots alone: the path goes to the stash, the block gets its new position,
the path is refilled. It keeps `Placed`: every id below `nBlock` has one copy, on its path or in the stash, and no payload
changes. `StashShape` is the part that depends on `length_st`, which only the code's routines have.
-/

namespace FOSketch.Oram

open Slots

variable {L : Layout}

/-! ## Placed blocks -/

/-- The real blocks of the tree and the stash. -/
def State.copies (s : State L) : List (Block L.bytes) := occupants Block.real (s.OblivSK.flatten ++ s.stash)

/-- Every id has one copy, which knows its position and lies on its path or in the stash. -/
structure Placed (s : State L) : Prop where
  tree_length : s.OblivSK.length = L.nBucket
  bucket_length : ∀ bucket ∈ s.OblivSK, bucket.length = L.sizeBucket
  one_copy : ∀ b < L.nBlock, (s.copies.map fun c => c.blockID.val).count b = 1
  pos_eq : ∀ c ∈ s.copies, c.blockID.val < L.nBlock → c.pos = s.pos_map c.blockID.val
  pos_lt : ∀ b < L.nBlock, (s.pos_map b).val < L.nLeaf
  on_path : ∀ (k : Nat) (bucket : List (Block L.bytes)), s.OblivSK[k]? = some bucket → ∀ c ∈ bucket, c.real = true →
    c.blockID.val < L.nBlock → k ∈ pathTo L.level (s.pos_map c.blockID.val).val

/-- A well-formed sketch; from `length_st` on the stash holds dummies only. -/
structure WellFormed (s : State L) : Prop extends StashShape s, Placed s

theorem exists_copy {s : State L} (h : Placed s) {b : Nat} (hb : b < L.nBlock) :
    ∃ c ∈ s.copies, c.blockID.val = b := by
  apply exists_of_count_id
  rw [h.one_copy b hb]
  exact one_pos

theorem Placed.lt_dummy {s : State L} (h : Placed s) {b : Nat} (hb : b < L.nBlock) : b < 65535 := by
  obtain ⟨c, hc, rfl⟩ := exists_copy h hb
  have hr := Block.real_iff.mp (mem_occupants.mp hc).2
  have h1 : c.blockID.val ≠ 65535 := fun he => hr (Fin.ext he)
  omega

theorem real_of_lt {s : State L} (h : Placed s) {c : Block L.bytes} (hc : c.blockID.val < L.nBlock) : c.real = true := by
  apply Block.real_iff.mpr
  intro he
  have := h.lt_dummy hc
  rw [he] at this
  exact absurd this (by decide)

theorem count_occupants {b : Nat} (hb : b < 65535) (l : List (Block L.bytes)) :
    (l.map fun c => c.blockID.val).count b = ((occupants Block.real l).map fun c => c.blockID.val).count b := by
  induction l with
  | nil => rfl
  | cons c l ih =>
    cases hr : c.real with
    | true => rw [occupants_cons_real hr, List.map_cons, List.map_cons, List.count_cons, List.count_cons, ih]
    | false =>
      have hid : c.blockID.val = 65535 := by
        rw [Block.real_eq_false_iff.mp hr]
        rfl
      rw [occupants_cons_hole hr, List.map_cons, List.count_cons_of_ne (by omega), ih]

/-- What is stored under an id. -/
def State.payload (s : State L) (b : Nat) : Option (Fin L.bytes → Byte) :=
  (s.copies.find? fun c => c.blockID.val == b).map Block.data

theorem eq_of_count_one {l : List (Block L.bytes)} {b : Nat} (h : (l.map fun c => c.blockID.val).count b = 1)
    {c d : Block L.bytes} (hc : c ∈ l) (hd : d ∈ l) (hcb : c.blockID.val = b) (hdb : d.blockID.val = b) : c = d := by
  by_contra hne
  have htwo : 2 ≤ (l.map fun c => c.blockID.val).count b := by
    rw [List.count_eq_countP, List.countP_map]
    obtain ⟨l₁, l₂, rfl⟩ := List.append_of_mem hc
    have hd' : d ∈ l₁ ++ l₂ := by
      rcases List.mem_append.mp hd with hd | hd
      · exact List.mem_append_left _ hd
      · rcases List.mem_cons.mp hd with rfl | hd
        · exact absurd rfl hne
        · exact List.mem_append_right _ hd
    have hpos : 0 < (l₁ ++ l₂).countP ((fun x => x == b) ∘ fun c : Block L.bytes => c.blockID.val) :=
      List.countP_pos_iff.mpr ⟨d, hd', by simpa using hdb⟩
    rw [List.countP_append, List.countP_cons_of_pos (by simpa using hcb)]
    rw [List.countP_append] at hpos
    omega
  omega

theorem payload_of_count_one {s : State L} {c : Block L.bytes} (hc : c ∈ s.copies)
    (hone : (s.copies.map fun d => d.blockID.val).count c.blockID.val = 1) :
    s.payload c.blockID.val = some c.data := by
  unfold State.payload
  cases hf : s.copies.find? fun d => d.blockID.val == c.blockID.val with
  | none =>
    have := List.find?_eq_none.mp hf c hc
    simp at this
  | some d =>
    have hd := List.mem_of_find?_eq_some hf
    have hid : d.blockID.val = c.blockID.val := by
      have := List.find?_some hf
      simpa using this
    rw [eq_of_count_one hone hd hc hid rfl, Option.map_some]

theorem Placed.payload_eq {s : State L} (h : Placed s) {c : Block L.bytes} (hc : c ∈ s.copies)
    (hb : c.blockID.val < L.nBlock) : s.payload c.blockID.val = some c.data :=
  payload_of_count_one hc (h.one_copy _ hb)

/-- The order of the stash plays no part, nor does `length_st`. -/
theorem Placed.of_stash_perm {s t : State L} (h : Placed s) (hstash : t.stash.Perm s.stash)
    (htree : t.OblivSK = s.OblivSK) (hmap : t.pos_map = s.pos_map) : Placed t := by
  have hcopies : t.copies.Perm s.copies := by
    unfold State.copies
    rw [htree]
    exact occupants_perm (hstash.append_left _)
  refine ⟨?_, ?_, ?_, ?_, ?_, ?_⟩
  · rw [htree]
    exact h.tree_length
  · rw [htree]
    exact h.bucket_length
  · intro b hb
    rw [(hcopies.map _).count_eq]
    exact h.one_copy b hb
  · intro c hc
    rw [hmap]
    exact h.pos_eq c (hcopies.mem_iff.mp hc)
  · rw [hmap]
    exact h.pos_lt
  · rw [htree, hmap]
    exact h.on_path

theorem payload_of_stash_perm {s t : State L} (h : Placed s) (hstash : t.stash.Perm s.stash)
    (htree : t.OblivSK = s.OblivSK) (hmap : t.pos_map = s.pos_map) {b : Nat} (hb : b < L.nBlock) :
    t.payload b = s.payload b := by
  obtain ⟨c, hc, rfl⟩ := exists_copy h hb
  have hc' : c ∈ t.copies := by
    unfold State.copies at hc ⊢
    rw [htree]
    exact (occupants_perm (hstash.append_left _)).mem_iff.mpr hc
  rw [(h.of_stash_perm hstash htree hmap).payload_eq hc' hb, h.payload_eq hc hb]

/-! ## Position-map look-ups -/

theorem foldl_lookUpLine (pos_map : Nat → Bid) (b m k : Nat) (leaf : Bid) :
    (List.range' (32 * k) m 32).foldl (fun leaf i => if i == b - b % 32 then pos_map b else leaf) leaf =
      if k ≤ b / 32 ∧ b / 32 < k + m then pos_map b else leaf := by
  induction m generalizing k leaf with
  | zero => rw [List.range'_zero, List.foldl_nil, if_neg (by omega)]
  | succ m ih =>
    rw [List.range'_succ, List.foldl_cons, show 32 * k + 32 = 32 * (k + 1) by ring, ih]
    by_cases hk : 32 * k = b - b % 32
    · rw [if_pos (show k ≤ b / 32 ∧ b / 32 < k + (m + 1) by omega), beq_iff_eq.mpr hk, if_pos rfl, ite_self]
    · rw [beq_eq_false_iff_ne.mpr hk, if_neg Bool.false_ne_true]
      by_cases hin : k + 1 ≤ b / 32 ∧ b / 32 < k + 1 + m
      · rw [if_pos hin, if_pos (by omega)]
      · rw [if_neg hin, if_neg (by omega)]

theorem lookUpLine_eq (pos_map : Nat → Bid) {nBlock b : Nat} (hb : b < nBlock) :
    lookUpLine pos_map nBlock b = pos_map b := by
  have h := foldl_lookUpLine pos_map b ((nBlock + 31) / 32) 0 0
  rw [if_pos (by omega)] at h
  exact h

theorem foldl_lookUpAll (pos_map : Nat → Bid) (b m : Nat) :
    (List.range m).foldl (fun leaf i => if i == b then pos_map i else leaf) (0 : Bid) =
      if b < m then pos_map b else 0 := by
  induction m with
  | zero => rfl
  | succ m ih =>
    rw [List.range_succ, List.foldl_append, ih, List.foldl_cons, List.foldl_nil]
    by_cases hm : m = b
    · rw [hm, beq_self_eq_true, if_pos rfl, if_pos (Nat.lt_succ_self b)]
    · rw [beq_eq_false_iff_ne.mpr hm, if_neg Bool.false_ne_true]
      by_cases hlt : b < m
      · rw [if_pos hlt, if_pos (by omega)]
      · rw [if_neg hlt, if_neg (by omega)]

theorem lookUpAll_eq (pos_map : Nat → Bid) {nBlock b : Nat} (hb : b < nBlock) :
    lookUpAll pos_map nBlock b = pos_map b := by
  rw [lookUpAll, foldl_lookUpAll, if_pos hb]

/-! ## The access in terms of slots -/

/-- The stash when the path was written to it. -/
def State.gathered (s : State L) (bid : Nat) : List (Block L.bytes) :=
  insertAll Block.real (readPath s (s.pos_map bid).val).flatten s.stash

def State.rebuilt (s : State L) (bid : Nat) (pos : Bid) : List (List (Block L.bytes)) × List (Block L.bytes) :=
  rebuild Block.real Block.erase (onPath L.level (Function.update s.pos_map bid pos) (s.pos_map bid).val) 0
    (cleared (readPath s (s.pos_map bid).val)) ((s.gathered bid).map (relabel bid pos))

/-- An access to `bid` that draws the leaf `pos`. -/
def State.accessed (s : State L) (bid : Nat) (pos : Bid) : State L where
  stash := (s.rebuilt bid pos).2
  length_st := s.length_st
  OblivSK := writeAt s.OblivSK (pathTo L.level (s.pos_map bid).val) (s.rebuilt bid pos).1
  pos_map := Function.update s.pos_map bid pos

/-- The real blocks an access brings together. -/
def State.load (s : State L) (bid : Nat) : Nat :=
  (occupants Block.real s.stash).length + (occupants Block.real (readPath s (s.pos_map bid).val).flatten).length

section Accessed
variable {s : State L} (h : Placed s) {bid : Nat} (hb : bid < L.nBlock)
include h hb

theorem leaf_lt : (s.pos_map bid).val < 2 ^ L.level := h.pos_lt bid hb

theorem readPath_eq : readPath s (s.pos_map bid).val = readAt s.OblivSK (pathTo L.level (s.pos_map bid).val) := by
  rw [readPath, pathBuckets_eq (leaf_lt h hb)]

theorem pathTo_lt_length : ∀ k ∈ pathTo L.level (s.pos_map bid).val, k < s.OblivSK.length := by
  intro k hk
  rw [h.tree_length]
  exact pathTo_lt (leaf_lt h hb) hk

/-- Off the path there is no copy of `bid` in the tree. -/
theorem off_path : ∃ rest : List (Block L.bytes),
    ((readPath s (s.pos_map bid).val).flatten ++ rest).Perm s.OblivSK.flatten ∧
      ∀ c ∈ occupants Block.real rest, c.blockID.val ≠ bid := by
  have hlen : (List.replicate (L.level + 1) ([] : List (Block L.bytes))).length =
      (pathTo L.level (s.pos_map bid).val).length := by rw [List.length_replicate, length_pathTo]
  have hperm := writeAt_perm (nodup_pathTo (leaf_lt h hb)) (pathTo_lt_length h hb) hlen
  refine ⟨(writeAt s.OblivSK (pathTo L.level (s.pos_map bid).val) (List.replicate (L.level + 1) [])).flatten, ?_, ?_⟩
  · rw [readPath_eq h hb]
    refine List.perm_append_comm.trans (hperm.trans ?_)
    simp
  · intro c hc he
    obtain ⟨hmem, hreal⟩ := mem_occupants.mp hc
    obtain ⟨bucket, hbucket, hcb⟩ := List.mem_flatten.mp hmem
    obtain ⟨k, hk⟩ := List.mem_iff_getElem?.mp hbucket
    by_cases hpath : k ∈ pathTo L.level (s.pos_map bid).val
    · obtain ⟨i, hi⟩ := List.mem_iff_getElem?.mp hpath
      rw [getElem?_writeAt (nodup_pathTo (leaf_lt h hb)) (pathTo_lt_length h hb) hlen hi] at hk
      rw [List.eq_of_mem_replicate (List.mem_of_getElem? hk)] at hcb
      simp at hcb
    · rw [getElem?_writeAt_of_notMem hpath] at hk
      have := h.on_path k bucket hk c hcb hreal (by rwa [he])
      rw [he] at this
      exact hpath this

theorem length_refilled (q : Nat → Block L.bytes → Bool) (l : List (Block L.bytes)) :
    (rebuild Block.real Block.erase q 0 (cleared (readPath s (s.pos_map bid).val)) l).1.length =
      (pathTo L.level (s.pos_map bid).val).length := by
  have hsizes : (rebuild Block.real Block.erase q 0 (cleared (readPath s (s.pos_map bid).val)) l).1.map List.length =
      (cleared (readPath s (s.pos_map bid).val)).map List.length := map_length_rebuild _ _ _ _
  have hlen := congrArg List.length hsizes
  rw [List.length_map, List.length_map] at hlen
  rw [hlen, cleared, List.length_map, readPath_eq h hb, length_readAt]

theorem length_rebuilt_fst (pos : Bid) : (s.rebuilt bid pos).1.length = (pathTo L.level (s.pos_map bid).val).length :=
  length_refilled h hb _ _

/-- Refilling the path from the slots `l` swaps the blocks of the old path for those of `l`. -/
theorem refill_copies (q : Nat → Block L.bytes → Bool) (l : List (Block L.bytes)) :
    (occupants Block.real (writeAt s.OblivSK (pathTo L.level (s.pos_map bid).val)
          (rebuild Block.real Block.erase q 0 (cleared (readPath s (s.pos_map bid).val)) l).1).flatten ++
        occupants Block.real (rebuild Block.real Block.erase q 0 (cleared (readPath s (s.pos_map bid).val)) l).2 ++
        occupants Block.real (readPath s (s.pos_map bid).val).flatten).Perm
      (occupants Block.real s.OblivSK.flatten ++ occupants Block.real l) := by
  have hwrite : (occupants Block.real _).Perm (occupants Block.real _) := occupants_perm
    (writeAt_perm (nodup_pathTo (leaf_lt h hb)) (pathTo_lt_length h hb) (length_refilled h hb q l))
  have hbuild := occupants_rebuild (fun b : Block L.bytes => b.real_erase) q 0
    (cleared_holes (readPath s (s.pos_map bid).val)) l
  rw [← readPath_eq h hb] at hwrite
  simp only [occupants_append] at hwrite
  rw [List.perm_iff_count]
  intro c
  have h1 := hwrite.count_eq c
  have h2 := hbuild.count_eq c
  simp only [List.count_append] at h1 h2 ⊢
  omega

/-- **An access loses and doubles no block**, and changes only the position of `bid`. -/
theorem accessed_copies (hroom : s.load bid ≤ s.stash.length) (pos : Bid) :
    (s.accessed bid pos).copies.Perm (s.copies.map (relabel bid pos)) := by
  obtain ⟨rest, hrest, hne⟩ := off_path h hb
  have hrelabel : (occupants Block.real rest).map (relabel bid pos) = occupants Block.real rest :=
    map_relabel_of_ne pos hne
  have htree : (occupants Block.real _).Perm (occupants Block.real _) := occupants_perm hrest
  have hrefill := refill_copies h hb (onPath L.level (Function.update s.pos_map bid pos) (s.pos_map bid).val)
    ((s.gathered bid).map (relabel bid pos))
  have hinsert : (occupants Block.real (s.gathered bid)).Perm _ :=
    occupants_insertAll (by unfold State.load at hroom; omega)
  rw [occupants_map_relabel] at hrefill
  have hmap := hinsert.map (relabel bid pos)
  have htreemap := htree.map (relabel bid pos)
  simp only [occupants_append, List.map_append, hrelabel] at htree hmap htreemap
  unfold State.copies State.accessed
  simp only [occupants_append, List.map_append]
  rw [List.perm_iff_count]
  intro c
  have h1 := htree.count_eq c
  have h2 := hrefill.count_eq c
  have h3 := hmap.count_eq c
  have h4 := htreemap.count_eq c
  simp only [List.count_append, State.rebuilt] at h1 h2 h3 h4 ⊢
  omega

/-- A bucket after the access is refilled, if it is on the path, or as it was. -/
theorem accessed_bucket {pos : Bid} {k : Nat} {bucket : List (Block L.bytes)}
    (hk : (s.accessed bid pos).OblivSK[k]? = some bucket) :
    (∃ i ≤ L.level, (pathTo L.level (s.pos_map bid).val)[i]? = some k ∧ (s.rebuilt bid pos).1[i]? = some bucket) ∨
      k ∉ pathTo L.level (s.pos_map bid).val ∧ s.OblivSK[k]? = some bucket := by
  change (writeAt _ _ _)[k]? = _ at hk
  by_cases hpath : k ∈ pathTo L.level (s.pos_map bid).val
  · left
    obtain ⟨i, hi⟩ := List.mem_iff_getElem?.mp hpath
    rw [getElem?_writeAt (nodup_pathTo (leaf_lt h hb)) (pathTo_lt_length h hb) (length_rebuilt_fst h hb pos) hi] at hk
    have hlt := (List.getElem?_eq_some_iff.mp hi).1
    rw [length_pathTo] at hlt
    exact ⟨i, Nat.le_of_lt_succ hlt, hi, hk⟩
  · right
    rw [getElem?_writeAt_of_notMem hpath] at hk
    exact ⟨hpath, hk⟩

theorem length_rebuilt_bucket {pos : Bid} {bucket : List (Block L.bytes)} (hmem : bucket ∈ (s.rebuilt bid pos).1) :
    bucket.length = L.sizeBucket := by
  have hlen : bucket.length ∈ (s.rebuilt bid pos).1.map List.length := List.mem_map_of_mem hmem
  rw [State.rebuilt, map_length_rebuild, cleared, List.map_map] at hlen
  obtain ⟨old, hold, he⟩ := List.mem_map.mp hlen
  rw [readPath_eq h hb, readAt] at hold
  obtain ⟨j, hj, rfl⟩ := List.mem_map.mp hold
  rw [← he, Function.comp_apply, List.length_map, List.getD_eq_getElem _ _ (pathTo_lt_length h hb j hj)]
  exact h.bucket_length _ (List.getElem_mem _)

omit h hb in
/-- The bucket at level `i` of the path took only blocks whose leaf is below it. -/
theorem rebuilt_on_path {pos : Bid} {i k : Nat} (hi : i ≤ L.level)
    (hk : (pathTo L.level (s.pos_map bid).val)[i]? = some k) {bucket : List (Block L.bytes)}
    (hbucket : (s.rebuilt bid pos).1[i]? = some bucket) {c : Block L.bytes} (hc : c ∈ bucket) (hreal : c.real = true) :
    k ∈ pathTo L.level (Function.update s.pos_map bid pos c.blockID.val).val := by
  rcases mem_rebuild hbucket hc with hold | hon
  · exact absurd hreal (by rw [cleared_holes _ c hold]; exact Bool.false_ne_true)
  · rw [onPath, beq_iff_eq, Nat.zero_add, Nat.shiftRight_eq_div_pow, Nat.shiftRight_eq_div_pow] at hon
    rw [getElem?_pathTo hi, Option.some.injEq] at hk
    have hnode := one_le_node L.level (s.pos_map bid).val i
    exact mem_pathTo.mpr ⟨i, hi, by rw [node_eq_of_div hon]; omega⟩

/-- **An access** leaves every block in its place. -/
theorem accessed_placed (hroom : s.load bid ≤ s.stash.length) {pos : Bid} (hpos : pos.val < L.nLeaf) :
    Placed (s.accessed bid pos) := by
  have hcopies := accessed_copies h hb hroom pos
  refine ⟨?_, ?_, ?_, ?_, ?_, ?_⟩
  · change (writeAt _ _ _).length = _
    rw [length_writeAt, h.tree_length]
  · intro bucket hbucket
    obtain ⟨k, hk⟩ := List.mem_iff_getElem?.mp hbucket
    rcases accessed_bucket h hb hk with ⟨i, -, -, hnew⟩ | ⟨-, hold⟩
    · exact length_rebuilt_bucket h hb (List.mem_of_getElem? hnew)
    · exact h.bucket_length bucket (List.mem_of_getElem? hold)
  · intro b hlt
    rw [(hcopies.map _).count_eq, List.map_map, ← h.one_copy b hlt]
    congr 1
    apply List.map_congr_left
    intro c _
    rw [Function.comp_apply, relabel_blockID]
  · intro c hc hlt
    obtain ⟨d, hd, rfl⟩ := List.mem_map.mp (hcopies.mem_iff.mp hc)
    rw [relabel_blockID] at hlt ⊢
    change _ = Function.update s.pos_map bid pos _
    by_cases hid : d.blockID.val = bid
    · rw [hid, Function.update_self, relabel, if_pos hid]
    · rw [Function.update_of_ne hid, relabel_of_ne pos hid]
      exact h.pos_eq d hd hlt
  · intro b hlt
    change (Function.update s.pos_map bid pos b).val < _
    by_cases hid : b = bid
    · rw [hid, Function.update_self]
      exact hpos
    · rw [Function.update_of_ne hid]
      exact h.pos_lt b hlt
  · intro k bucket hk c hc hreal hlt
    change k ∈ pathTo L.level (Function.update s.pos_map bid pos _).val
    rcases accessed_bucket h hb hk with ⟨i, hi, hnode, hnew⟩ | ⟨hpath, hsame⟩
    · exact rebuilt_on_path hi hnode hnew hc hreal
    · have hold := h.on_path k bucket hsame c hc hreal hlt
      have hid : c.blockID.val ≠ bid := by
        intro he
        rw [he] at hold
        exact hpath hold
      rwa [Function.update_of_ne hid]

theorem accessed_payload (hroom : s.load bid ≤ s.stash.length) {pos : Bid} (hpos : pos.val < L.nLeaf) {b : Nat}
    (hlt : b < L.nBlock) : (s.accessed bid pos).payload b = s.payload b := by
  obtain ⟨c, hc, rfl⟩ := exists_copy h hlt
  have hc' : relabel bid pos c ∈ (s.accessed bid pos).copies :=
    (accessed_copies h hb hroom pos).mem_iff.mpr (List.mem_map_of_mem hc)
  have := (accessed_placed h hb hroom hpos).payload_eq hc' (by rwa [relabel_blockID])
  rw [relabel_blockID, relabel_data] at this
  rw [this, h.payload_eq hc hlt]

theorem mem_gathered (hroom : s.load bid ≤ s.stash.length) :
    (occupants Block.real (s.gathered bid)).Perm
        (occupants Block.real (readPath s (s.pos_map bid).val).flatten ++ occupants Block.real s.stash) ∧
      ∀ c ∈ s.copies, c.blockID.val = bid → c ∈ s.gathered bid := by
  have hinsert : (occupants Block.real (s.gathered bid)).Perm _ :=
    occupants_insertAll (by unfold State.load at hroom; omega)
  refine ⟨hinsert, fun c hc he => ?_⟩
  obtain ⟨rest, hrest, hne⟩ := off_path h hb
  suffices c ∈ occupants Block.real (s.gathered bid) from (mem_occupants.mp this).1
  rw [hinsert.mem_iff, List.mem_append]
  unfold State.copies at hc
  rw [occupants_append, List.mem_append, ← (occupants_perm hrest).mem_iff, occupants_append, List.mem_append] at hc
  rcases hc with (hc | hc) | hc
  · exact Or.inl hc
  · exact absurd he (hne c hc)
  · exact Or.inr hc

/-- The one copy is on the path or in the stash. -/
theorem count_path_stash :
    ((occupants Block.real (readPath s (s.pos_map bid).val).flatten).map fun c => c.blockID.val).count bid +
      ((occupants Block.real s.stash).map fun c => c.blockID.val).count bid = 1 := by
  obtain ⟨rest, hrest, hne⟩ := off_path h hb
  have hone := h.one_copy bid hb
  have hocc : (occupants Block.real _).Perm (occupants Block.real _) := occupants_perm hrest
  have htree := (hocc.map fun c => c.blockID.val).count_eq bid
  have hzero := count_id_eq_zero hne
  unfold State.copies at hone
  rw [occupants_append, List.map_append, List.count_append] at hone htree
  omega

theorem count_gathered (hroom : s.load bid ≤ s.stash.length) :
    ((s.gathered bid).map fun c => c.blockID.val).count bid = 1 := by
  rw [count_occupants (h.lt_dummy hb), ((mem_gathered h hb hroom).1.map _).count_eq, List.map_append, List.count_append]
  exact count_path_stash h hb

end Accessed

/-! ## Small sketches -/

def sketchOf (L : Layout) (tree : List (List (Block L.bytes))) (blocks : List (Block L.bytes)) (length_st : Nat)
    (pos_map : Nat → Bid) : State L where
  stash := blocks ++ List.replicate (MAX_STASH_NUM - blocks.length) ⟨DUMMY_FLAG, 0, fun _ => 0⟩
  length_st := length_st
  OblivSK := tree
  pos_map := pos_map

theorem wellFormed_sketchOf {tree : List (List (Block L.bytes))} {blocks : List (Block L.bytes)} {length_st : Nat}
    {pos_map : Nat → Bid} (hlen : blocks.length ≤ length_st ∧ DEFAULT_STASH_LENGTH ≤ length_st ∧ length_st ≤ MAX_STASH_NUM)
    (htree : tree.length = L.nBucket) (hbucket : ∀ bucket ∈ tree, bucket.length = L.sizeBucket)
    (hone : ∀ b < L.nBlock, ((occupants Block.real (tree.flatten ++ blocks)).map fun c => c.blockID.val).count b = 1)
    (hpos : ∀ c ∈ occupants Block.real (tree.flatten ++ blocks), c.blockID.val < L.nBlock →
      c.pos.val = (pos_map c.blockID.val).val)
    (hlt : ∀ b < L.nBlock, (pos_map b).val < L.nLeaf)
    (hpath : ∀ p ∈ tree.zipIdx, ∀ c ∈ occupants Block.real p.1, c.blockID.val < L.nBlock →
      p.2 ∈ pathTo L.level (pos_map c.blockID.val).val) :
    WellFormed (sketchOf L tree blocks length_st pos_map) := by
  obtain ⟨hle, hmin, hmax⟩ := hlen
  have hdummies : ∀ b ∈ List.replicate (MAX_STASH_NUM - blocks.length) (⟨DUMMY_FLAG, 0, fun _ => 0⟩ : Block L.bytes),
      b.real = false := fun b hb => by
    rw [List.eq_of_mem_replicate hb]
    rfl
  have hcopies : (sketchOf L tree blocks length_st pos_map).copies = occupants Block.real (tree.flatten ++ blocks) := by
    unfold State.copies
    change occupants _ (tree.flatten ++ (blocks ++ _)) = _
    rw [occupants_append, occupants_append, occupants_of_holes hdummies, List.append_nil, occupants_append]
  refine ⟨⟨?_, hmin, hmax, ?_⟩, ⟨htree, hbucket, ?_, ?_, hlt, ?_⟩⟩
  · change (blocks ++ List.replicate _ _).length = _
    rw [List.length_append, List.length_replicate]
    omega
  · intro b hb
    change b ∈ (blocks ++ List.replicate _ _).drop length_st at hb
    rw [List.drop_append, List.drop_of_length_le hle, List.nil_append] at hb
    exact hdummies b (List.mem_of_mem_drop hb)
  · rw [hcopies]
    exact hone
  · rw [hcopies]
    exact fun c hc h => Fin.ext (hpos c hc h)
  · intro k bucket hk c hc hr hid
    obtain ⟨hlt', rfl⟩ := List.getElem?_eq_some_iff.mp hk
    exact hpath (_, k) (List.mem_zipIdx_iff_getElem?.mpr hk) c (mem_occupants.mpr ⟨hc, hr⟩) hid

/-- A `'C'` sketch of two leaves; a block has 12 counters. -/
def small (sizeBucket nBlock : Nat) : Layout where
  sketchType := .C
  sizeBlock := 16
  sizeBucket := sizeBucket
  nBlock := nBlock
  level := 1
  needComStash := false
  sizeBlock_eq := sizeBlock_16
  level_lt := level_1

def flat (sizeBucket nBlock : Nat) (id pos : Bid) (v : Byte) : Block (small sizeBucket nBlock).bytes := ⟨id, pos, fun _ => v⟩

end FOSketch.Oram
