import FOSketch.Heavy.Response
import FOSketch.Keyed.Scan

/-!
# The response with the heavy changes

`HeavyChangeList` has an entry for every entry of both epochs, and `OHeavyChange` sorts and counts all `2 * NUM_HEAVY` of
them. `OResponseHeavyChange` looks for the threshold in the first `NUM_HEAVY` only, so that it answers with the entries that
reach the threshold exactly if there are at most `NUM_HEAVY` (`OResponseHeavyChange_iff`).
-/

namespace FOSketch.Heavy

open Memory Secure

/-- The loop that counts `topK`. -/
def countReaching (threshold : U32) : Bid → List Item → Bid
  | topK, [] => topK
  | topK, x :: l => if x.size < threshold then topK else countReaching threshold (topK + 1) l

/-- `OResponseHeavyChange`. `percent` is what `gamma * Cardinality / 100` gives for a `gamma` of at most 1, as a
`uint32_t`. -/
def OResponseHeavyChange (percent : Nat → U32) (g : Epoch) : Option (List Item) :=
  let threshold := percent g.Cardinality
  let topK := countReaching threshold 0 (load g.HeavyChangeList 0 NUM_HEAVY)
  if topK = 0 then none else some (load g.HeavyChangeList 0 topK.val)

def Epoch.changeList (g : Epoch) : List Item := load g.HeavyChangeList 0 (2 * NUM_HEAVY)

theorem changeList_split (g : Epoch) :
    g.changeList = load g.HeavyChangeList 0 NUM_HEAVY ++ load g.HeavyChangeList NUM_HEAVY NUM_HEAVY := by
  rw [Epoch.changeList, Nat.two_mul, load_add, Nat.zero_add]

def reaching (threshold : U32) (l : List Item) : List Item := l.filter fun x => decide (threshold ≤ x.size)

/-- All these entries in their order, and null only if there are none. -/
structure Answers (threshold : U32) (l : List Item) (respHC : Option (List Item)) : Prop where
  entries : ∀ r, respHC = some r → r = reaching threshold l
  null : respHC = none → reaching threshold l = []

def orNull : List Item → Option (List Item)
  | [] => none
  | x :: r => some (x :: r)

section Response
variable {threshold : U32} {l : List Item}

theorem answers_orNull {r : List Item} : Answers threshold l (orNull r) ↔ r = reaching threshold l := by
  cases r with
  | nil => exact ⟨fun h => (h.null rfl).symm, fun h => ⟨fun r hr => absurd hr (by simp [orNull]), fun _ => h.symm⟩⟩
  | cons x r =>
    exact ⟨fun h => h.entries _ rfl, fun h => ⟨fun r' hr => (Option.some.inj hr).symm.trans h,
      fun hr => absurd hr (by simp [orNull])⟩⟩

/-- In a list in order the scan stops behind the entries that reach the threshold. -/
theorem takeWhile_reaching (hl : l.Pairwise fun x y => y.size ≤ x.size) :
    (l.takeWhile fun x => decide (threshold ≤ x.size)) = reaching threshold l := by
  apply Keyed.takeWhile_eq_filter
  apply hl.imp
  intro x y hxy hy
  exact decide_eq_true ((of_decide_eq_true hy).trans hxy)

theorem countReaching_val {topK : Bid} (hl : topK.val + l.length < 65536) :
    (countReaching threshold topK l).val =
      topK.val + (l.takeWhile fun x => decide (threshold ≤ x.size)).length := by
  induction l generalizing topK with
  | nil => rfl
  | cons x l ih =>
    rw [List.length_cons] at hl
    unfold countReaching
    by_cases hx : x.size < threshold
    · rw [if_pos hx, List.takeWhile_cons_of_neg (by simpa using hx)]
      rfl
    · have hnext : (topK + 1).val = topK.val + 1 := by
        show (topK.val + 1) % 65536 = _
        omega
      rw [if_neg hx, ih (by omega), List.takeWhile_cons_of_pos (by simpa using hx), hnext, List.length_cons]
      omega

/-- The entries it answers with are those of the first `NUM_HEAVY` that reach the threshold. -/
theorem OResponseHeavyChange_eq {percent : Nat → U32} {g : Epoch}
    (hl : (load g.HeavyChangeList 0 NUM_HEAVY).Pairwise fun x y => y.size ≤ x.size) :
    OResponseHeavyChange percent g = orNull (reaching (percent g.Cardinality) (load g.HeavyChangeList 0 NUM_HEAVY)) := by
  have hNUM : NUM_HEAVY = 16384 := by decide
  have hlen : (load g.HeavyChangeList 0 NUM_HEAVY).length = 16384 := by rw [length_load, hNUM]
  have hroom : (0 : Bid).val + (load g.HeavyChangeList 0 NUM_HEAVY).length < 65536 := by rw [hlen]; decide
  have htop := @countReaching_val (percent g.Cardinality) _ _ hroom
  have hprefix := List.takeWhile_prefix (l := load g.HeavyChangeList 0 NUM_HEAVY)
    fun x => decide (percent g.Cardinality ≤ x.size)
  rw [takeWhile_reaching hl] at htop hprefix
  have hresp := List.prefix_iff_eq_take.mp hprefix
  have hle := hprefix.length_le
  rw [length_load] at hle
  rw [load_take, min_eq_left hle] at hresp
  unfold OResponseHeavyChange
  dsimp only
  generalize countReaching (percent g.Cardinality) 0 (load g.HeavyChangeList 0 NUM_HEAVY) = topK at htop
  have hval : topK.val = (reaching (percent g.Cardinality) (load g.HeavyChangeList 0 NUM_HEAVY)).length := by
    rw [htop]
    exact Nat.zero_add _
  rw [hval, ← hresp]
  cases hr : reaching (percent g.Cardinality) (load g.HeavyChangeList 0 NUM_HEAVY) with
  | nil =>
    rw [hr] at hval
    exact if_pos (Fin.ext hval)
  | cons x r =>
    rw [hr] at hval
    apply if_neg
    rintro rfl
    exact absurd hval (by simp)

/-- Only the entries of the second half can be missing. -/
theorem answers_iff_rest {percent : Nat → U32} {g : Epoch} (hl : g.changeList.Pairwise fun x y => y.size ≤ x.size) :
    Answers (percent g.Cardinality) g.changeList (OResponseHeavyChange percent g) ↔
      reaching (percent g.Cardinality) (load g.HeavyChangeList NUM_HEAVY NUM_HEAVY) = [] := by
  have hfilter : reaching (percent g.Cardinality) g.changeList =
      reaching (percent g.Cardinality) (load g.HeavyChangeList 0 NUM_HEAVY) ++
        reaching (percent g.Cardinality) (load g.HeavyChangeList NUM_HEAVY NUM_HEAVY) := by
    rw [changeList_split]
    exact List.filter_append _ _
  have hfirst : (load g.HeavyChangeList 0 NUM_HEAVY).Pairwise fun x y => y.size ≤ x.size := by
    rw [changeList_split, List.pairwise_append] at hl
    exact hl.1
  rw [OResponseHeavyChange_eq hfirst, answers_orNull, hfilter, List.self_eq_append_right]

/-- **The response has all changes** exactly if the entry behind the first `NUM_HEAVY` is below the threshold. -/
theorem OResponseHeavyChange_iff {percent : Nat → U32} {g : Epoch}
    (hl : g.changeList.Pairwise fun x y => y.size ≤ x.size) :
    Answers (percent g.Cardinality) g.changeList (OResponseHeavyChange percent g) ↔
      (g.HeavyChangeList NUM_HEAVY).size < percent g.Cardinality := by
  have hhead := load_pos g.HeavyChangeList NUM_HEAVY (by decide : 0 < NUM_HEAVY)
  have hrest := hl
  rw [changeList_split, List.pairwise_append, hhead] at hrest
  rw [answers_iff_rest hl, hhead, reaching, List.filter_eq_nil_iff]
  constructor
  · intro h
    have hx := h _ List.mem_cons_self
    simpa using hx
  · intro hlt x hx
    have hle : x.size ≤ (g.HeavyChangeList NUM_HEAVY).size := by
      rcases List.mem_cons.mp hx with rfl | hx
      · exact le_rfl
      · exact (List.pairwise_cons.mp hrest.2.1).1 x hx
    simpa using hle.trans_lt hlt

theorem changeList_pairwise {g : Epoch} (h : ∀ i j, i ≤ j → (g.HeavyChangeList j).size ≤ (g.HeavyChangeList i).size) :
    g.changeList.Pairwise fun x y => y.size ≤ x.size := by
  rw [Epoch.changeList, load, List.pairwise_map]
  apply List.pairwise_lt_range.imp
  intro i j hij
  rw [Nat.zero_add, Nat.zero_add]
  exact h i j hij.le

end Response

/-! ## The list of `OHeavyChange` -/

theorem OHeavyChange_sorted {hash : U32 → U32} {rand : Nat → Int} {mem : Tables} {HeavyHitterList : Nat → Item}
    {numHeavy numBucket maxnumBucket maxsizeBucket count : Nat} {l : List Item} (h2 : numHeavy ≤ 2 ^ 29)
    (h : OHeavyChange hash rand mem HeavyHitterList numHeavy numBucket maxnumBucket maxsizeBucket = some (l, count)) :
    l.length = 2 * numHeavy ∧ l.Pairwise fun x y => y.size ≤ x.size := by
  unfold OHeavyChange at h
  rw [Option.bind_eq_bind, Option.bind_eq_some_iff] at h
  obtain ⟨t, -, h⟩ := h
  dsimp only at h
  split_ifs at h with hlen
  rw [not_not] at hlen
  obtain ⟨rfl, -⟩ := Prod.mk.inj (Option.some.inj h)
  obtain ⟨hsorted, hperm⟩ := sortDESC_spec h2 hlen
  exact ⟨hperm.length_eq.trans hlen, hsorted⟩

theorem changeListAfter_of_some {hash : U32 → U32} {rand : Nat → Int} {mem : Tables} {HeavyHitterList : Nat → Item}
    {numHeavy numBucket maxnumBucket maxsizeBucket count : Nat} {l : List Item} (HeavyChangeList : Nat → Item)
    (h : OHeavyChange hash rand mem HeavyHitterList numHeavy numBucket maxnumBucket maxsizeBucket = some (l, count)) :
    changeListAfter hash rand mem HeavyHitterList HeavyChangeList numHeavy numBucket maxnumBucket maxsizeBucket =
      store HeavyChangeList 0 l := by
  unfold changeListAfter
  rw [h]

/-- The list a response is made from, after a message whose `OHeavyChange` succeeds. -/
theorem changeList_evaluate {out : Outside} {draws : Draws} {m : Mallocs} {p2Sketch : Nat → Byte} {g : Epoch}
    {l : List Item} {count : Nat} (h : changeCall out draws m p2Sketch g = some (l, count)) :
    (evaluate out draws m p2Sketch g).changeList = l ∧ l.Pairwise fun x y => y.size ≤ x.size := by
  obtain ⟨hlen, hsorted⟩ := OHeavyChange_sorted (by decide) h
  refine ⟨?_, hsorted⟩
  have hlist : (evaluate out draws m p2Sketch g).HeavyChangeList =
      changeListAfter (out.Hash32 (seed draws.btHash)) draws.change m.tables (mergedHeavy p2Sketch g) g.HeavyChangeList
        NUM_HEAVY BT_BUCKET_NUM BT_BUCKET_MAX_NUM BT_BUCKET_MAX_SIZE := by
    unfold evaluate
    dsimp only
  unfold changeCall at h
  rw [changeListAfter_of_some g.HeavyChangeList h] at hlist
  rw [Epoch.changeList, hlist]
  exact load_store_of_length _ _ hlen

/-- A response after such a message. -/
theorem OResponseHeavyChange_evaluate {out : Outside} {draws : Draws} {m : Mallocs} {p2Sketch : Nat → Byte} {g : Epoch}
    {l : List Item} {count : Nat} (percent : Nat → U32) (h : changeCall out draws m p2Sketch g = some (l, count)) :
    Answers (percent (evaluate out draws m p2Sketch g).Cardinality) l
        (OResponseHeavyChange percent (evaluate out draws m p2Sketch g)) ↔
      reaching (percent (evaluate out draws m p2Sketch g).Cardinality) (l.drop NUM_HEAVY) = [] := by
  obtain ⟨hlist, hsorted⟩ := changeList_evaluate h
  have hrest := @answers_iff_rest percent _ (hlist ▸ hsorted)
  have hdrop : load (evaluate out draws m p2Sketch g).HeavyChangeList NUM_HEAVY NUM_HEAVY = l.drop NUM_HEAVY := by
    rw [← hlist, changeList_split, List.drop_left' (length_load _ _ _)]
  rwa [hlist, hdrop] at hrest

/-! ## Two lists -/

def changed (list : Nat → Item) (Cardinality : Nat) : Epoch :=
  { epochOf noItems fun _ => ⟨0, 0⟩ with HeavyChangeList := list, Cardinality := Cardinality }

/-- What `gamma = 1` makes of an estimate. -/
def onePercent (Cardinality : Nat) : U32 := Fin.ofNat 4294967296 (Cardinality / 100)

/-- Three changes of 500 packets. -/
theorem OResponseHeavyChange_iff_three :
    let g := changed (fun i => if i < 3 then ⟨Fin.ofNat 4294967296 (i + 1), 500⟩ else ⟨0, 0⟩) 32800
    Answers (onePercent g.Cardinality) g.changeList (OResponseHeavyChange onePercent g) ↔
      (g.HeavyChangeList NUM_HEAVY).size < onePercent g.Cardinality := by
  apply OResponseHeavyChange_iff
  apply changeList_pairwise
  intro i j hij
  show (if _ then _ else _ : Item).size ≤ (if _ then _ else _ : Item).size
  split_ifs
  · exact le_rfl
  · omega
  · exact Fin.zero_le _
  · exact le_rfl

/-- Two epochs without a common flow, each with `NUM_HEAVY` flows of 400 packets. The threshold is 328, and half of the
changes are missing. -/
theorem OResponseHeavyChange_truncated :
    let g := changed (fun i => ⟨Fin.ofNat 4294967296 (i + 1), 400⟩) 32800
    1 ≤ onePercent g.Cardinality ∧ (g.changeList.Pairwise fun x y => y.size ≤ x.size) ∧
      ¬Answers (onePercent g.Cardinality) g.changeList (OResponseHeavyChange onePercent g) := by
  intro g
  have hsorted : g.changeList.Pairwise fun x y => y.size ≤ x.size := changeList_pairwise fun _ _ _ => le_rfl
  refine ⟨by decide, hsorted, ?_⟩
  rw [answers_iff_rest hsorted, reaching, List.filter_eq_nil_iff]
  intro h
  have hmem : g.HeavyChangeList NUM_HEAVY ∈ load g.HeavyChangeList NUM_HEAVY NUM_HEAVY := by
    apply List.mem_of_getElem? (i := 0)
    exact getElem?_load _ _ (by decide)
  exact h _ hmem (by decide)

end FOSketch.Heavy
