import FOSketch.Heavy.Lookup

/-!
# `BuildSTable_NO`

The plain routine fills the table in the order of the list, without a shuffle, and counts the stash in a variable of its own,
while `OAccessFID` goes by the global one. Which items share a bucket depends on the flows only, so on the list that
`OBuildSTable` left it has the same result, ends with the same count, and a look-up gets the same answer in both tables,
unless the places that neither routine writes hold different entries of the flow (`BuildSTable_NO_agrees`).
-/

namespace FOSketch.Heavy

open Memory

def plainItems (hash : U32 → U32) (rand : Nat → Int) (HeavyHitterList : Nat → Item) : List (Nat × Item) :=
  (List.range NUM_HEAVY).map fun i =>
    let tmp := HeavyHitterList i
    (OMove (drawBucket (rand i)) ((hash tmp.flowID).val % ST_BUCKET_NUM) (tmp.flowID == 0), tmp)

/-- `BuildSTable_NO`; the count in the table it returns is `countStash_no`. -/
def BuildSTable_NO (hash : U32 → U32) (rand : Nat → Int) (table stash HeavyHitterList : Nat → Item) : STable × Bool :=
  fillST (fun _ => 0) ⟨table, stash, 0⟩ (plainItems hash rand HeavyHitterList)

section Plain
variable {hash : U32 → U32} {rand : Nat → Int} {HeavyHitterList : Nat → Item}

theorem map_snd_plainItems (hash : U32 → U32) (rand : Nat → Int) (HeavyHitterList : Nat → Item) :
    (plainItems hash rand HeavyHitterList).map Prod.snd = curList HeavyHitterList NUM_HEAVY := by
  rw [plainItems, List.map_map]
  rfl

/-- No draw is used if every item has a flow. -/
theorem plainItems_bucket (hne : ∀ x ∈ curList HeavyHitterList NUM_HEAVY, x.flowID ≠ 0) :
    ∀ p ∈ plainItems hash rand HeavyHitterList, p.1 = (hash p.2.flowID).val % ST_BUCKET_NUM := by
  intro p hp
  obtain ⟨i, hi, rfl⟩ := List.mem_map.mp hp
  dsimp only
  rw [beq_eq_false_iff_ne.mpr (hne _ (List.mem_map_of_mem hi)), OMove_false]

end Plain

/-! ## Tables of the same items -/

/-- The places of bucket `hash f` that no item is written to hold the same entries of the flow in both memories. -/
def SameStale (hash : U32 → U32) (table table' : Nat → Item) (f : U32) : Prop :=
  ((stalePlaces hash table f).filter fun x => x.flowID == f) = (stalePlaces hash table' f).filter fun x => x.flowID == f

theorem scanSizes_filter (f size : U32) (l : List Item) :
    scanSizes f size l = scanSizes f size (l.filter fun x => x.flowID == f) := by
  induction l generalizing size with
  | nil => rfl
  | cons x l ih =>
    have hcons : ∀ size r, scanSizes f size (x :: r) = scanSizes f (OMove x.size size (x.flowID == f)) r :=
      fun _ _ => rfl
    rw [hcons, ih, List.filter_cons]
    by_cases hx : x.flowID = f
    · rw [if_pos (beq_iff_eq.mpr hx), hcons]
    · rw [if_neg (by rwa [beq_iff_eq]), beq_eq_false_iff_ne.mpr hx, OMove_false]

section Same
variable {hash : U32 → U32} {ps qs : List (Nat × Item)} (hps : ∀ p ∈ ps, p.1 = (hash p.2.flowID).val % ST_BUCKET_NUM)
  (hqs : ∀ q ∈ qs, q.1 = (hash q.2.flowID).val % ST_BUCKET_NUM) (hperm : (ps.map Prod.snd).Perm (qs.map Prod.snd))

include hps in
theorem map_hash_eq : ps = (ps.map Prod.snd).map fun x => ((hash x.flowID).val % ST_BUCKET_NUM, x) := by
  rw [List.map_map]
  conv_lhs => rw [← List.map_id ps]
  exact List.map_congr_left fun p hp => Prod.ext (hps p hp) rfl

include hps hqs hperm

theorem pairs_perm : ps.Perm qs := by
  rw [map_hash_eq hps, map_hash_eq hqs]
  exact hperm.map _

theorem length_group_eq (b : Nat) : (group ps b).length = (group qs b).length :=
  (((pairs_perm hps hqs hperm).filter _).map _).length_eq

theorem length_spill_eq : (spill (fun _ => 0) ps).length = (spill (fun _ => 0) qs).length := by
  have hlt : ∀ {rs : List (Nat × Item)}, (∀ p ∈ rs, p.1 = (hash p.2.flowID).val % ST_BUCKET_NUM) →
      ∀ p ∈ rs, p.1 < ST_BUCKET_NUM := by
    intro rs hrs p hp
    rw [hrs p hp]
    exact Nat.mod_lt _ (by decide)
  rw [length_spill (hlt hps) fun _ => Nat.zero_le _, length_spill (hlt hqs) fun _ => Nat.zero_le _]
  simp only [length_group_eq hps hqs hperm]

variable {table table' stash stash' : Nat → Item}

theorem fillST_snd_eq :
    (fillST (fun _ => 0) ⟨table, stash, 0⟩ ps).2 = (fillST (fun _ => 0) ⟨table', stash', 0⟩ qs).2 := by
  have hroom (table stash : Nat → Item) : (⟨table, stash, 0⟩ : STable).countStash ≤ ST_STASH_NUM := Nat.zero_le _
  rw [Bool.eq_iff_iff, fillST_snd (hroom table stash), fillST_snd (hroom table' stash'), length_spill_eq hps hqs hperm]

/-- **Two tables of the same items** have stashes of the same length, and the same answer where the places left from before
say the same of the flow. -/
theorem fillST_agree (hdistinct : ((ps.map Prod.snd).map Item.flowID).Nodup) {t t' : STable}
    (h : fillST (fun _ => 0) ⟨table, stash, 0⟩ ps = (t, true))
    (h' : fillST (fun _ => 0) ⟨table', stash', 0⟩ qs = (t', true))
    (hload : ∀ b, (group qs b).length = stLoad hash b) :
    t.countStash = t'.countStash ∧ ∀ f, SameStale hash table table' f →
      scanSizes f (scanSizes f 0 (t.row ((hash f).val % ST_BUCKET_NUM))) t.stash =
        scanSizes f (scanSizes f 0 (t'.row ((hash f).val % ST_BUCKET_NUM))) t'.stash := by
  constructor
  · have hlen := congrArg List.length (fillST_stash h)
    have hlen' := congrArg List.length (fillST_stash h')
    rw [List.length_append, length_spill_eq hps hqs hperm] at hlen
    rw [List.length_append] at hlen'
    have hcount (t : STable) : t.stash.length = t.countStash := length_load _ _ _
    simp only [hcount] at hlen hlen'
    omega
  · intro f hsame
    rw [scan_filled hps (List.Perm.refl _) hdistinct h f, scan_filled hqs hperm.symm hdistinct h' f,
      length_group_eq hps hqs hperm, hload]
    rw [scanSizes_filter f _ (List.drop _ _), scanSizes_filter f _ (List.drop _ (load table' _ _))]
    exact congrArg (scanSizes f _) hsame

end Same

/-! ## The two routines -/

/-- The two fills, the plain one of the list that the oblivious routine left. -/
theorem fillST_renumber_agree (hash : U32 → U32) (rand rand' : Nat → Int)
    (table table' stash stash' HeavyHitterList : Nat → Item) {t t' : STable} {ok ok' : Bool}
    (h : fillST (fun _ => 0) ⟨table', stash', 0⟩ (plainItems hash rand' (renumber HeavyHitterList)) = (t, ok))
    (h' : fillST (fun _ => 0) ⟨table, stash, 0⟩ (stItems hash rand HeavyHitterList) = (t', ok')) :
    ok = ok' ∧ (ok' = true → t.countStash = t'.countStash ∧ ∀ f, SameStale hash table' table f →
      scanSizes f (scanSizes f 0 (t.row ((hash f).val % ST_BUCKET_NUM))) t.stash =
        scanSizes f (scanSizes f 0 (t'.row ((hash f).val % ST_BUCKET_NUM))) t'.stash) := by
  have hne : ∀ x ∈ curList (renumber HeavyHitterList) NUM_HEAVY, x.flowID ≠ 0 := by
    intro x hx h0
    obtain ⟨i, hi, rfl⟩ := List.mem_map.mp hx
    have hval := flowID_renumber HeavyHitterList (List.mem_range.mp hi)
    rw [h0] at hval
    exact absurd hval (Nat.succ_ne_zero i).symm
  have hplain : ∀ p ∈ plainItems hash rand' (renumber HeavyHitterList), p.1 = (hash p.2.flowID).val % ST_BUCKET_NUM :=
    plainItems_bucket hne
  have hoblivious : ∀ q ∈ stItems hash rand HeavyHitterList, q.1 = (hash q.2.flowID).val % ST_BUCKET_NUM :=
    fun q hq => stItems_bucket hq
  have hperm : ((plainItems hash rand' (renumber HeavyHitterList)).map Prod.snd).Perm
      ((stItems hash rand HeavyHitterList).map Prod.snd) := by
    rw [map_snd_plainItems]
    exact (stItems_perm hash rand HeavyHitterList).symm
  have hsame : ok = ok' := by
    have hsnd : (fillST (fun _ => 0) ⟨table', stash', 0⟩ _).2 = (fillST (fun _ => 0) ⟨table, stash, 0⟩ _).2 :=
      fillST_snd_eq hplain hoblivious hperm
    rwa [h, h'] at hsnd
  refine ⟨hsame, fun htrue => ?_⟩
  subst htrue hsame
  have hdistinct : (((plainItems hash rand' (renumber HeavyHitterList)).map Prod.snd).map Item.flowID).Nodup := by
    rw [map_snd_plainItems]
    exact renumber_distinct HeavyHitterList
  exact fillST_agree hplain hoblivious hperm hdistinct h h'
    (length_group_stItems hash rand HeavyHitterList)

/-- **The plain routine agrees with the oblivious one** on the list that this one left: in every memory and for all draws it
has the same result, and if that is true the same number of items in the stash and the same answer for every flow of which
the places left from before say the same. -/
theorem BuildSTable_NO_agrees (hash : U32 → U32) (rand rand' : Nat → Int)
    (table table' stash stash' HeavyHitterList : Nat → Item) :
    let o := OBuildSTable hash rand table stash HeavyHitterList
    let p := BuildSTable_NO hash rand' table' stash' o.1
    p.2 = o.2.2 ∧ (o.2.2 = true → p.1.countStash = o.2.1.countStash ∧ ∀ f, SameStale hash table' table f →
      scanSizes f (scanSizes f 0 (p.1.row ((hash f).val % ST_BUCKET_NUM))) p.1.stash =
        scanSizes f (scanSizes f 0 (o.2.1.row ((hash f).val % ST_BUCKET_NUM))) o.2.1.stash) := by
  intro o p
  have ho : o = (renumber HeavyHitterList, fillST (fun _ => 0) ⟨table, stash, 0⟩ (stItems hash rand HeavyHitterList)) :=
    OBuildSTable_eq hash rand table stash HeavyHitterList
  have hp : p = fillST (fun _ => 0) ⟨table', stash', 0⟩ (plainItems hash rand' (renumber HeavyHitterList)) := by
    unfold p
    rw [ho]
    rfl
  obtain ⟨t, ok, h⟩ : ∃ t ok, fillST (fun _ => 0) ⟨table', stash', 0⟩ (plainItems hash rand' (renumber HeavyHitterList)) =
      (t, ok) := ⟨_, _, Prod.mk.eta.symm⟩
  obtain ⟨t', ok', h'⟩ : ∃ t' ok', fillST (fun _ => 0) ⟨table, stash, 0⟩ (stItems hash rand HeavyHitterList) = (t', ok') :=
    ⟨_, _, Prod.mk.eta.symm⟩
  rw [ho, hp, h, h']
  exact fillST_renumber_agree hash rand rand' table table' stash stash' HeavyHitterList h h'

end FOSketch.Heavy
