import FOSketch.Heavy.Change

/-!
# `OBuildSTable`

The first half of `HeavyHitterList` gets new flow ids, is shuffled and hashed into a table of buckets of seven places; an
item that finds its bucket full goes to a stash. A row of the table ends as the first seven items of its bucket followed by
what the memory held (`fillST_row`), the stash as the other items in their order (`fillST_stash`), and the routine succeeds
exactly if the stash holds them (`fillST_snd`).
-/

namespace FOSketch.Heavy

open Memory

/-! ## The routine -/

/-- `abs(rand() % ST_BUCKET_NUM)`, on `int`s. -/
def drawBucket (r : Int) : Nat := (r.tmod ST_BUCKET_NUM).natAbs

/-- `HeavyHitterList[i].flowID = i+1` -/
def renumber (HeavyHitterList : Nat → Item) : Nat → Item := fun i =>
  if i < NUM_HEAVY then { HeavyHitterList i with flowID := Fin.ofNat 4294967296 (i + 1) } else HeavyHitterList i

structure STable where
  pDataStashTable : Nat → Item
  pStashHeavy : Nat → Item
  countStash : Nat

/-- `pDataStashTable[index] = tmp` -/
def STable.place (t : STable) (index : Nat) (tmp : Item) : STable :=
  { t with pDataStashTable := Function.update t.pDataStashTable index tmp }

def STable.push (t : STable) (tmp : Item) : STable :=
  { t with pStashHeavy := Function.update t.pStashHeavy t.countStash tmp, countStash := t.countStash + 1 }

/-- The loop that fills the table, over the items and their buckets. It returns false when the stash is full. -/
def fillST : (Nat → Nat) → STable → List (Nat × Item) → STable × Bool
  | _, t, [] => (t, true)
  | idcList, t, p :: ps =>
    if ST_BUCKET_SIZE ≤ idcList p.1 then
      if ST_STASH_NUM ≤ t.countStash then (t, false)
      else fillST idcList (t.push p.2) ps
    else
      fillST (Function.update idcList p.1 (idcList p.1 + 1)) (t.place (ST_BUCKET_SIZE * p.1 + idcList p.1) p.2) ps

/-- `pSP` when it is sorted. -/
def stPairs (rand : Nat → Int) (list : Nat → Item) : List ShufflePair :=
  sortPairs NUM_HEAVY ((List.range NUM_HEAVY).map fun i => ⟨toBid (drawBucket (rand i)), list i⟩)

/-- The items of the loop with their buckets; `rand i` is what `rand` returns in turn `i`. -/
def stTargets (hash : U32 → U32) (rand : Nat → Int) (pairs : List ShufflePair) : List (Nat × Item) :=
  pairs.zipIdx.map fun p => (OMove (drawBucket (rand p.2)) ((hash p.1.elem.flowID).val % ST_BUCKET_NUM)
    (p.1.elem.flowID == 0), p.1.elem)

/-- `HeavyHitterList`, the table and the result; `table` and `stash` are what the memory from `malloc` holds. -/
def OBuildSTable (hash : U32 → U32) (rand : Nat → Int) (table stash : Nat → Item) (HeavyHitterList : Nat → Item) :
    (Nat → Item) × STable × Bool :=
  let HeavyHitterList := renumber HeavyHitterList
  let pSP := stPairs rand HeavyHitterList
  (HeavyHitterList, fillST (fun _ => 0) ⟨table, stash, 0⟩ (stTargets hash (fun i => rand (NUM_HEAVY + i)) pSP))

/-! ## The loop -/

/-- The items that find their bucket full. -/
def spill : (Nat → Nat) → List (Nat × Item) → List Item
  | _, [] => []
  | idcList, p :: ps =>
    if ST_BUCKET_SIZE ≤ idcList p.1 then p.2 :: spill idcList ps
    else spill (Function.update idcList p.1 (idcList p.1 + 1)) ps

def STable.row (t : STable) (b : Nat) : List Item := load t.pDataStashTable (ST_BUCKET_SIZE * b) ST_BUCKET_SIZE

def STable.stash (t : STable) : List Item := load t.pStashHeavy 0 t.countStash

theorem take_set_succ {α : Type*} {l : List α} {k : Nat} (hk : k < l.length) (x : α) :
    (l.set k x).take (k + 1) = l.take k ++ [x] := by
  rw [List.take_succ_eq_append_getElem (by rwa [List.length_set]), List.getElem_set_self, List.take_set_of_le le_rfl]

theorem slot_eq_iff {i j k l : Nat} (hk : k < ST_BUCKET_SIZE) (hl : l < ST_BUCKET_SIZE) :
    ST_BUCKET_SIZE * i + k = ST_BUCKET_SIZE * j + l ↔ i = j ∧ k = l := by
  unfold ST_BUCKET_SIZE at *
  omega

@[simp] theorem row_push (t : STable) (x : Item) : (t.push x).row = t.row := rfl

@[simp] theorem stash_place (t : STable) (index : Nat) (x : Item) : (t.place index x).stash = t.stash := rfl

@[simp] theorem stash_push (t : STable) (x : Item) : (t.push x).stash = t.stash ++ [x] := by
  have hlast : (t.push x).pStashHeavy t.countStash = x := Function.update_self _ _ _
  have hsplit : (t.push x).stash = load (t.push x).pStashHeavy 0 t.countStash ++
      [(t.push x).pStashHeavy (0 + t.countStash)] := load_succ _ _ _
  rw [hsplit, Nat.zero_add, hlast]
  congr 1
  exact load_update_outside _ (Or.inr (by omega)) _

theorem row_place {t : STable} {b i k : Nat} (hk : k < ST_BUCKET_SIZE) (x : Item) :
    (t.place (ST_BUCKET_SIZE * i + k) x).row b = if i = b then (t.row b).set k x else t.row b := by
  by_cases hi : i = b
  · subst hi
    rw [if_pos rfl]
    apply List.ext_getElem?
    intro j
    unfold STable.row STable.place
    dsimp only
    by_cases hj : j < ST_BUCKET_SIZE
    · rw [getElem?_load _ _ hj, List.getElem?_set, getElem?_load _ _ hj, length_load]
      by_cases hjk : k = j
      · subst hjk
        rw [if_pos rfl, if_pos hj, Function.update_self]
      · rw [if_neg hjk, Function.update_of_ne fun h => hjk ((slot_eq_iff hj hk).mp h).2.symm]
    · rw [List.getElem?_eq_none (by rw [length_load]; omega),
        List.getElem?_eq_none (by rw [List.length_set, length_load]; omega)]
  · rw [if_neg hi]
    exact load_congr fun j hj => Function.update_of_ne (fun h => hi ((slot_eq_iff hj hk).mp h).1.symm) _ _

/-- **A row**: the items of its bucket as far as they fit, then what was there before. -/
theorem fillST_row {ps : List (Nat × Item)} {idcList : Nat → Nat} {t t' : STable}
    (h : fillST idcList t ps = (t', true)) (b : Nat) :
    t'.row b = (t.row b).take (idcList b) ++ (group ps b).take (ST_BUCKET_SIZE - idcList b) ++
      (t.row b).drop (idcList b + (group ps b).length) := by
  induction ps generalizing idcList t with
  | nil =>
    obtain ⟨rfl, -⟩ := Prod.mk.inj h
    rw [group_nil, List.take_nil, List.append_nil, List.length_nil, Nat.add_zero, List.take_append_drop]
  | cons p ps ih =>
    rw [fillST] at h
    rw [group_cons]
    by_cases hfull : ST_BUCKET_SIZE ≤ idcList p.1
    · rw [if_pos hfull] at h
      by_cases hstash : ST_STASH_NUM ≤ t.countStash
      · rw [if_pos hstash] at h
        exact absurd (Prod.mk.inj h).2 Bool.false_ne_true
      rw [if_neg hstash] at h
      have hrow := ih h
      by_cases hb : p.1 = b
      · subst hb
        have hlen : (t.row p.1).length ≤ idcList p.1 := (length_load _ _ _).le.trans hfull
        rw [if_pos rfl, hrow, row_push, Nat.sub_eq_zero_of_le hfull, List.take_zero, List.take_zero, List.length_cons,
          List.drop_of_length_le (hlen.trans (Nat.le_add_right _ _)),
          List.drop_of_length_le (hlen.trans (Nat.le_add_right _ _))]
      · rw [if_neg hb]
        exact hrow
    · rw [if_neg hfull] at h
      rw [not_le] at hfull
      have hrow := ih h
      rw [row_place hfull] at hrow
      by_cases hb : p.1 = b
      · subst hb
        have hlen : idcList p.1 < (t.row p.1).length := hfull.trans_eq (length_load _ _ _).symm
        have htake : (p.2 :: group ps p.1).take (ST_BUCKET_SIZE - idcList p.1) =
            p.2 :: (group ps p.1).take (ST_BUCKET_SIZE - (idcList p.1 + 1)) := by
          rw [show ST_BUCKET_SIZE - idcList p.1 = ST_BUCKET_SIZE - (idcList p.1 + 1) + 1 by omega, List.take_succ_cons]
        rw [if_pos rfl, Function.update_self, take_set_succ hlen, List.drop_set_of_lt (by omega)] at hrow
        rw [if_pos rfl, hrow, htake, List.length_cons, List.append_assoc _ [p.2], List.singleton_append]
        congr 2
        omega
      · rw [if_neg hb, Function.update_of_ne (Ne.symm hb)] at hrow
        rw [if_neg hb]
        exact hrow

/-- **The stash** gets the items that found their bucket full. -/
theorem fillST_stash {ps : List (Nat × Item)} {idcList : Nat → Nat} {t t' : STable}
    (h : fillST idcList t ps = (t', true)) : t'.stash = t.stash ++ spill idcList ps := by
  induction ps generalizing idcList t with
  | nil =>
    obtain ⟨rfl, -⟩ := Prod.mk.inj h
    exact (List.append_nil _).symm
  | cons p ps ih =>
    rw [fillST] at h
    rw [spill]
    by_cases hfull : ST_BUCKET_SIZE ≤ idcList p.1
    · rw [if_pos hfull] at h
      by_cases hstash : ST_STASH_NUM ≤ t.countStash
      · rw [if_pos hstash] at h
        exact absurd (Prod.mk.inj h).2 Bool.false_ne_true
      rw [if_neg hstash] at h
      rw [if_pos hfull, ih h, stash_push, List.append_assoc, List.singleton_append]
    · rw [if_neg hfull] at h
      rw [if_neg hfull, ih h, stash_place]

/-- **The result**: the stash has room for these items. -/
theorem fillST_snd {ps : List (Nat × Item)} {idcList : Nat → Nat} {t : STable} (ht : t.countStash ≤ ST_STASH_NUM) :
    (fillST idcList t ps).2 = true ↔ t.countStash + (spill idcList ps).length ≤ ST_STASH_NUM := by
  induction ps generalizing idcList t with
  | nil => exact iff_of_true rfl ht
  | cons p ps ih =>
    rw [fillST, spill]
    by_cases hfull : ST_BUCKET_SIZE ≤ idcList p.1
    · rw [if_pos hfull, if_pos hfull]
      by_cases hstash : ST_STASH_NUM ≤ t.countStash
      · rw [if_pos hstash, List.length_cons]
        exact iff_of_false Bool.false_ne_true (by omega)
      rw [if_neg hstash]
      have hcount : (t.push p.2).countStash = t.countStash + 1 := rfl
      rw [ih (by rw [hcount]; omega), hcount, List.length_cons]
      omega
    · rw [if_neg hfull, if_neg hfull]
      exact ih ht

/-! ## The items that do not fit -/

theorem mem_spill {ps : List (Nat × Item)} {idcList : Nat → Nat} {x : Item} (h : x ∈ spill idcList ps) :
    ∃ b, (b, x) ∈ ps ∧ ST_BUCKET_SIZE < idcList b + (group ps b).length := by
  induction ps generalizing idcList with
  | nil => exact absurd h List.not_mem_nil
  | cons p ps ih =>
    have hmono : ∀ b, (group ps b).length ≤ (group (p :: ps) b).length := by
      intro b
      rw [group_cons]
      split_ifs
      · exact Nat.le_succ _
      · exact le_rfl
    rw [spill] at h
    by_cases hfull : ST_BUCKET_SIZE ≤ idcList p.1
    · rw [if_pos hfull] at h
      rcases List.mem_cons.mp h with rfl | h
      · refine ⟨p.1, List.mem_cons_self, ?_⟩
        rw [group_cons, if_pos rfl, List.length_cons]
        omega
      · obtain ⟨b, hb, hlt⟩ := ih h
        exact ⟨b, List.mem_cons_of_mem p hb, hlt.trans_le (Nat.add_le_add_left (hmono b) _)⟩
    · rw [if_neg hfull] at h
      obtain ⟨b, hb, hlt⟩ := ih h
      refine ⟨b, List.mem_cons_of_mem p hb, hlt.trans_le ?_⟩
      by_cases he : b = p.1
      · subst he
        rw [Function.update_self, group_cons, if_pos rfl, List.length_cons]
        omega
      · rw [Function.update_of_ne he]
        exact Nat.add_le_add_left (hmono b) _

theorem mem_row_or_spill {ps : List (Nat × Item)} (idcList : Nat → Nat) {b : Nat} {x : Item} (h : (b, x) ∈ ps) :
    x ∈ (group ps b).take (ST_BUCKET_SIZE - idcList b) ∨ x ∈ spill idcList ps := by
  induction ps generalizing idcList with
  | nil => exact absurd h List.not_mem_nil
  | cons p ps ih =>
    rw [spill, group_cons]
    by_cases hfull : ST_BUCKET_SIZE ≤ idcList p.1
    · rw [if_pos hfull]
      rcases List.mem_cons.mp h with rfl | h
      · exact Or.inr List.mem_cons_self
      · rcases ih idcList h with hrow | hspill
        · apply Or.inl
          by_cases hb : p.1 = b
          · subst hb
            rw [Nat.sub_eq_zero_of_le hfull, List.take_zero] at hrow
            exact absurd hrow List.not_mem_nil
          · rwa [if_neg hb]
        · exact Or.inr (List.mem_cons_of_mem _ hspill)
    · rw [if_neg hfull]
      rw [not_le] at hfull
      by_cases hb : p.1 = b
      · subst hb
        rw [if_pos rfl, show ST_BUCKET_SIZE - idcList p.1 = ST_BUCKET_SIZE - (idcList p.1 + 1) + 1 by omega,
          List.take_succ_cons]
        rcases List.mem_cons.mp h with he | h
        · obtain rfl : x = p.2 := congrArg Prod.snd he
          exact Or.inl List.mem_cons_self
        · have hrest : x ∈ (group ps p.1).take (ST_BUCKET_SIZE - Function.update idcList p.1 (idcList p.1 + 1) p.1) ∨
              x ∈ spill (Function.update idcList p.1 (idcList p.1 + 1)) ps := ih _ h
          rw [Function.update_self] at hrest
          exact hrest.imp_left (List.mem_cons_of_mem _)
      · rw [if_neg hb]
        have htail : (b, x) ∈ ps := by
          rcases List.mem_cons.mp h with rfl | h
          · exact absurd rfl hb
          · exact h
        have hrest : x ∈ (group ps b).take (ST_BUCKET_SIZE - Function.update idcList p.1 (idcList p.1 + 1) b) ∨
            x ∈ spill (Function.update idcList p.1 (idcList p.1 + 1)) ps := ih _ htail
        rwa [Function.update_of_ne (Ne.symm hb)] at hrest

theorem length_spill {ps : List (Nat × Item)} (hps : ∀ p ∈ ps, p.1 < ST_BUCKET_NUM) {idcList : Nat → Nat}
    (hidc : ∀ b, idcList b ≤ ST_BUCKET_SIZE) :
    (spill idcList ps).length =
      ∑ b ∈ Finset.range ST_BUCKET_NUM, (idcList b + (group ps b).length - ST_BUCKET_SIZE) := by
  induction ps generalizing idcList with
  | nil =>
    refine (Finset.sum_eq_zero fun b _ => ?_).symm
    rw [group_nil, List.length_nil, Nat.add_zero, Nat.sub_eq_zero_of_le (hidc b)]
  | cons p ps ih =>
    have hp : p.1 ∈ Finset.range ST_BUCKET_NUM := Finset.mem_range.mpr (hps p List.mem_cons_self)
    have hrest := fun q hq => hps q (List.mem_cons_of_mem p hq)
    have hother : ∀ b ∈ (Finset.range ST_BUCKET_NUM).erase p.1, group (p :: ps) b = group ps b := by
      intro b hb
      rw [group_cons, if_neg (Ne.symm (Finset.ne_of_mem_erase hb))]
    have hself : group (p :: ps) p.1 = p.2 :: group ps p.1 := by
      rw [group_cons, if_pos rfl]
    rw [spill, ← Finset.add_sum_erase _ _ hp, hself, List.length_cons,
      Finset.sum_congr rfl fun b hb => by rw [hother b hb]]
    by_cases hfull : ST_BUCKET_SIZE ≤ idcList p.1
    · rw [if_pos hfull, List.length_cons, ih hrest hidc, ← Finset.add_sum_erase _ _ hp]
      omega
    · have hupd : ∀ b, Function.update idcList p.1 (idcList p.1 + 1) b ≤ ST_BUCKET_SIZE := by
        intro b
        by_cases hb : b = p.1
        · subst hb
          rw [Function.update_self]
          omega
        · rw [Function.update_of_ne hb]
          exact hidc b
      rw [if_neg hfull, ih hrest hupd, ← Finset.add_sum_erase _ _ hp, Function.update_self,
        Finset.sum_congr rfl fun b hb => by rw [Function.update_of_ne (Finset.ne_of_mem_erase hb)]]
      omega

/-! ## The items of the heavy list -/

theorem flowID_renumber (HeavyHitterList : Nat → Item) {i : Nat} (hi : i < NUM_HEAVY) :
    (renumber HeavyHitterList i).flowID.val = i + 1 := by
  have hNUM : NUM_HEAVY < 4294967295 := by decide
  rw [renumber, if_pos hi]
  exact Nat.mod_eq_of_lt (by omega)

theorem renumber_distinct (HeavyHitterList : Nat → Item) :
    ((curList (renumber HeavyHitterList) NUM_HEAVY).map Item.flowID).Nodup := by
  unfold curList
  rw [List.map_map]
  refine List.Nodup.map_on (fun i hi j hj he => ?_) List.nodup_range
  have hval := congrArg Fin.val he
  rw [Function.comp_apply, Function.comp_apply, flowID_renumber _ (List.mem_range.mp hi),
    flowID_renumber _ (List.mem_range.mp hj)] at hval
  omega

def stItems (hash : U32 → U32) (rand : Nat → Int) (HeavyHitterList : Nat → Item) : List (Nat × Item) :=
  stTargets hash (fun i => rand (NUM_HEAVY + i)) (stPairs rand (renumber HeavyHitterList))

theorem stItems_perm (hash : U32 → U32) (rand : Nat → Int) (HeavyHitterList : Nat → Item) :
    ((stItems hash rand HeavyHitterList).map Prod.snd).Perm (curList (renumber HeavyHitterList) NUM_HEAVY) := by
  have hzip : ∀ pairs : List ShufflePair, pairs.zipIdx.map Prod.fst = pairs := fun pairs => List.zipIdx_map_fst ..
  have hsnd : (stItems hash rand HeavyHitterList).map Prod.snd =
      (stPairs rand (renumber HeavyHitterList)).map ShufflePair.elem := by
    conv_rhs => rw [← hzip (stPairs rand (renumber HeavyHitterList))]
    rw [stItems, stTargets, List.map_map, List.map_map]
    rfl
  have hlist : ((List.range NUM_HEAVY).map fun i =>
      (⟨toBid (drawBucket (rand i)), renumber HeavyHitterList i⟩ : ShufflePair)).map ShufflePair.elem =
        curList (renumber HeavyHitterList) NUM_HEAVY := by
    rw [List.map_map]
    rfl
  rw [hsnd, ← hlist]
  exact (sortPairs_perm _ _).map _

/-- No item lacks a flow, so every one goes to the bucket of its flow. -/
theorem stItems_bucket {hash : U32 → U32} {rand : Nat → Int} {HeavyHitterList : Nat → Item} {p : Nat × Item}
    (hp : p ∈ stItems hash rand HeavyHitterList) : p.1 = (hash p.2.flowID).val % ST_BUCKET_NUM := by
  have hmem := (stItems_perm hash rand HeavyHitterList).mem_iff.mp (List.mem_map_of_mem hp)
  obtain ⟨i, hi, he⟩ := List.mem_map.mp hmem
  have hne : p.2.flowID ≠ 0 := by
    intro h0
    have hval := flowID_renumber HeavyHitterList (List.mem_range.mp hi)
    rw [he, h0] at hval
    exact absurd hval (Nat.succ_ne_zero i).symm
  obtain ⟨q, -, rfl⟩ := List.mem_map.mp hp
  dsimp only at hne ⊢
  rw [beq_eq_false_iff_ne.mpr hne, OMove_false]

theorem stItems_lt {hash : U32 → U32} {rand : Nat → Int} {HeavyHitterList : Nat → Item} {p : Nat × Item}
    (hp : p ∈ stItems hash rand HeavyHitterList) : p.1 < ST_BUCKET_NUM := by
  rw [stItems_bucket hp]
  exact Nat.mod_lt _ (by decide)

/-- How many of the flow ids `1` to `NUM_HEAVY` belong to bucket `b`. -/
def stLoad (hash : U32 → U32) (b : Nat) : Nat :=
  (List.range NUM_HEAVY).countP fun i => (hash (Fin.ofNat 4294967296 (i + 1))).val % ST_BUCKET_NUM == b

theorem length_group_stItems (hash : U32 → U32) (rand : Nat → Int) (HeavyHitterList : Nat → Item) (b : Nat) :
    (group (stItems hash rand HeavyHitterList) b).length = stLoad hash b := by
  have hfilter : ((stItems hash rand HeavyHitterList).filter fun p => p.1 == b) =
      (stItems hash rand HeavyHitterList).filter fun p => (hash p.2.flowID).val % ST_BUCKET_NUM == b :=
    List.filter_congr fun p hp => by rw [stItems_bucket hp]
  have hcount : (((stItems hash rand HeavyHitterList).map Prod.snd).countP fun x =>
      (hash x.flowID).val % ST_BUCKET_NUM == b) = stLoad hash b := by
    rw [(stItems_perm hash rand HeavyHitterList).countP_eq, curList, List.countP_map, stLoad]
    refine List.countP_congr fun i hi => ?_
    rw [Function.comp_apply, renumber, if_pos (List.mem_range.mp hi)]
  rw [group, List.length_map, hfilter, ← hcount, List.countP_map, List.countP_eq_length_filter]
  rfl

theorem OBuildSTable_eq (hash : U32 → U32) (rand : Nat → Int) (table stash HeavyHitterList : Nat → Item) :
    OBuildSTable hash rand table stash HeavyHitterList = (renumber HeavyHitterList,
      fillST (fun _ => 0) ⟨table, stash, 0⟩ (stItems hash rand HeavyHitterList)) := by
  unfold OBuildSTable stItems
  rfl

def stOverflow (hash : U32 → U32) : Nat := ∑ b ∈ Finset.range ST_BUCKET_NUM, (stLoad hash b - ST_BUCKET_SIZE)

/-- **`OBuildSTable` succeeds** exactly if the stash holds what the buckets do not. -/
theorem OBuildSTable_true_iff (hash : U32 → U32) (rand : Nat → Int) (table stash HeavyHitterList : Nat → Item) :
    (OBuildSTable hash rand table stash HeavyHitterList).2.2 = true ↔ stOverflow hash ≤ ST_STASH_NUM := by
  have hitems : ∀ p ∈ stItems hash rand HeavyHitterList, p.1 < ST_BUCKET_NUM := fun p hp => stItems_lt hp
  have hzero : (⟨table, stash, 0⟩ : STable).countStash = 0 := rfl
  rw [OBuildSTable_eq, fillST_snd (hzero.le.trans (Nat.zero_le _)), hzero, Nat.zero_add,
    length_spill hitems fun _ => Nat.zero_le _, stOverflow]
  simp only [length_group_stItems, Nat.zero_add]

end FOSketch.Heavy
