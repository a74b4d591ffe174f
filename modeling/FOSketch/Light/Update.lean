import FOSketch.Keyed.Scan
import FOSketch.Sorter

/-!
# The light-part update

`OUpdateCUSketch_BEx` and the plain loop `UpdateCUSketch_NO`. The light part is memory from `pLight` on, a function of
the offset; `stack` is what the uninitialised array `dump` holds on entry, and `hash` stands for `SpookyHash::Hash32`
under the seed `cusHash`.
-/

namespace FOSketch

structure Block64 where
  blockID : Bid
  pos : Bid
  data : Fin 60 → Byte

def nRecord : Nat := CACHE_LINE - 2 * sizeofBid

@[simp] theorem nRecord_eq : nRecord = 60 := rfl

def greater_SP (pi pj : Block64) : Bool := decide (pj.blockID < pi.blockID)

/-- `vpmaxub` on the two bytes of a `uint16_t`. -/
def vpmaxub (a b : Bid) : Bid :=
  ⟨max (a.val / 256) (b.val / 256) * 256 + max (a.val % 256) (b.val % 256), by omega⟩

theorem vpmaxub_self (a : Bid) : vpmaxub a a = a := by
  apply Fin.ext
  simp only [vpmaxub, max_self]
  omega

theorem le_vpmaxub (a b : Bid) : a ≤ vpmaxub a b := by
  rw [Fin.le_def]
  simp only [vpmaxub]
  omega

/-- `OMaxSetMemCL`: the block it leaves in both `px` and `py`. -/
def OMaxSetMemCL (px py : Block64) (cond : Bool) : Block64 :=
  if cond then px
  else ⟨vpmaxub px.blockID py.blockID, vpmaxub px.pos py.pos, fun j => max (px.data j) (py.data j)⟩

/-- The loop under `OMax`: blocks of one id gather in the last of them, the others become dummies. -/
def OMax : List Block64 → Block64 → Bool → List Block64
  | [], _, _ => []
  | [b], tmpB, cond => [OMaxSetMemCL b tmpB cond]
  | b :: c :: dump, tmpB, cond =>
    let b := OMaxSetMemCL b tmpB cond
    let cond := decide (b.blockID < c.blockID)
    { b with blockID := OMove b.blockID DUMMY_FLAG cond } :: OMax (c :: dump) b cond

/-- The loop that fills the light blocks, over the values `is` of its counter. -/
def fillLight (pLight : Nat → Byte) (is : List Nat) (dump : List Block64) : List Block64 :=
  is.foldl (fun dump i =>
    dump.modify i fun b => { b with blockID := toBid i, data := fun j => pLight (i * nRecord + j) }) dump

/-- The block of a heavy item, written over `b`. -/
def heavyBlock (hash : U32 → U32) (numLight : Nat) (item : Item) (b : Block64) : Block64 :=
  let cid := (hash item.flowID).val % numLight
  let cidx := cid % nRecord
  let cnt := item.size
  let cnt := OMove 255 cnt (decide (255 < cnt))
  { b with blockID := toBid (cid / nRecord), data := fun j => OMove (toByte cnt.val) 0 (decide (j.val = cidx)) }

/-- The two loops that fill `dump2`. -/
def fillHeavy (hash : U32 → U32) (numLight : Nat) (pHeavy : List Item) (stack : Nat → Block64) (num1Block : Nat) :
    List Block64 :=
  pHeavy.zipIdx.map (fun p => heavyBlock hash numLight p.1 (stack p.2)) ++
    (List.range' pHeavy.length (num1Block - pHeavy.length)).map fun i => { stack i with blockID := DUMMY_FLAG }

/-- `memcpy` of the first `numEBlock` blocks back to the light part. -/
def copyBack (pLight : Nat → Byte) (dump : List Block64) (numEBlock : Nat) : Nat → Byte := fun a =>
  match (dump.take numEBlock)[a / nRecord]? with
  | some b => b.data ⟨a % nRecord, Nat.mod_lt _ (by decide)⟩
  | none => pLight a

/-- `oeBlockASC.sort` or `bsBlockASC.sort`. -/
def sortASC {α : Type*} (greater : α → α → Bool) (isPo2 : Bool) (l : List α) (num : Nat) : List α :=
  if isPo2 then OddEvenMergeSorter.sort greater l num else BitonicSorter.sort greater l num

/-- `oeBlockASC.merge` or `bsBlockASC.merge`. -/
def mergeASC {α : Type*} (greater : α → α → Bool) (isPo2 : Bool) (l : List α) (num : Nat) : List α :=
  if isPo2 then OddEvenMergeSorter.merge greater l num else BitonicSorter.merge greater l num

def OUpdateCUSketch_BEx (hash : U32 → U32) (stack : Nat → Block64) (tmpB : Block64) (pLight : Nat → Byte)
    (numLight : Nat) (pHeavy : List Item) : Nat → Byte :=
  let numHeavy := pHeavy.length
  let numEBlock := numLight / nRecord
  let num1Block := numEBlock
  let num2Block := if num1Block < numHeavy then numHeavy else num1Block
  let isLightPo2 := testPo2 numEBlock
  let isHeavyPo2 := testPo2 num2Block
  let dump := (List.range num1Block).map stack
  let dump :=
    if isLightPo2 then fillLight pLight (List.range numEBlock) dump
    else fillLight pLight (List.range numEBlock).reverse dump
  let dump2 := fillHeavy hash numLight pHeavy (fun i => stack (num1Block + i)) num1Block
  let dump2 := sortASC greater_SP isHeavyPo2 dump2 num2Block
  let dump2 := OMax (dump2.take numHeavy) tmpB true ++ dump2.drop numHeavy
  let tmpB := (dump2.take numHeavy).getLastD tmpB
  let dump2 := sortASC greater_SP isHeavyPo2 dump2 num2Block
  let dump := mergeASC greater_SP isLightPo2 (dump ++ dump2) (num1Block * 2)
  let dump := OMax (dump.take (numEBlock * 2)) tmpB true ++ dump.drop (numEBlock * 2)
  let dump := sortASC greater_SP isLightPo2 dump (num1Block * 2)
  copyBack pLight dump numEBlock

def UpdateCUSketch_NO (hash : U32 → U32) (pLight : Nat → Byte) (numLight : Nat) (pHeavy : List Item) : Nat → Byte :=
  pHeavy.foldl (fun pLight item =>
    let idx := (hash item.flowID).val % numLight
    let size := item.size
    let size := if 255 < size then 255 else size
    if (pLight idx).val < size.val then Function.update pLight idx (toByte size.val) else pLight) pLight

/-! ## What the plain loop does -/

/-- What a heavy item offers its counter: `min(255, size)`. -/
def offer (item : Item) : Byte := toByte (min 255 item.size.val)

theorem offer_val (item : Item) : (offer item).val = min 255 item.size.val := by
  rw [offer, toByte_val]; omega

/-- `OMove(255, size, size > 255)` -/
theorem clamp_val (size : U32) : (if 255 < size then (255 : U32) else size).val = min 255 size.val := by
  have h255 : (255 : U32).val = 255 := rfl
  split_ifs with h <;> rw [Fin.lt_def] at h <;> omega

/-- The counter `c` after the plain loop: the largest of its value and the offers of the items hashed to it. -/
def counterMax (hash : U32 → U32) (pLight : Nat → Byte) (numLight : Nat) (pHeavy : List Item) (c : Nat) : Byte :=
  (pHeavy.filter fun item => decide ((hash item.flowID).val % numLight = c)).foldl (fun m item => max m (offer item))
    (pLight c)

theorem foldl_max_offer_le_iff {l : List Item} {u v : Byte} :
    l.foldl (fun m item => max m (offer item)) u ≤ v ↔ u ≤ v ∧ ∀ item ∈ l, offer item ≤ v := by
  induction l generalizing u with
  | nil => simp
  | cons item l ih => rw [List.foldl_cons, ih, max_le_iff, and_assoc, List.forall_mem_cons]

theorem counterMax_le_iff {hash : U32 → U32} {pLight : Nat → Byte} {numLight : Nat} {pHeavy : List Item} {c : Nat}
    {v : Byte} : counterMax hash pLight numLight pHeavy c ≤ v ↔
      pLight c ≤ v ∧ ∀ item ∈ pHeavy, (hash item.flowID).val % numLight = c → offer item ≤ v := by
  rw [counterMax, foldl_max_offer_le_iff]
  refine and_congr_right fun _ => ⟨fun h item hi hc => h item ?_, fun h item hi => ?_⟩
  · exact List.mem_filter.mpr ⟨hi, decide_eq_true hc⟩
  · obtain ⟨hi, hc⟩ := List.mem_filter.mp hi
    exact h item hi (of_decide_eq_true hc)

theorem UpdateCUSketch_NO_eq (hash : U32 → U32) (pLight : Nat → Byte) (numLight : Nat) (pHeavy : List Item) :
    UpdateCUSketch_NO hash pLight numLight pHeavy = counterMax hash pLight numLight pHeavy := by
  induction pHeavy generalizing pLight with
  | nil => rfl
  | cons item pHeavy ih =>
    unfold UpdateCUSketch_NO at ih ⊢
    rw [List.foldl_cons, ih]
    dsimp only
    simp only [clamp_val]
    rw [← offer, ← offer_val item]
    funext c
    unfold counterMax
    by_cases hc : (hash item.flowID).val % numLight = c
    · rw [List.filter_cons_of_pos (by rwa [decide_eq_true_eq]), List.foldl_cons, hc]
      congr 1
      split_ifs with h
      · rw [Function.update_self, max_eq_right (Fin.le_def.mpr h.le)]
      · rw [max_eq_left (Fin.le_def.mpr (not_lt.mp h))]
    · rw [List.filter_cons_of_neg (by rwa [decide_eq_true_eq])]
      congr 1
      split_ifs
      · rw [Function.update_of_ne (Ne.symm hc)]
      · rfl

/-- What lies past the light part keeps its value. -/
theorem counterMax_of_le (hash : U32 → U32) (pLight : Nat → Byte) {numLight c : Nat} (h0 : 1 ≤ numLight) (hc : numLight ≤ c)
    (pHeavy : List Item) : counterMax hash pLight numLight pHeavy c = pLight c := by
  have hnone : pHeavy.filter (fun item => decide ((hash item.flowID).val % numLight = c)) = [] := by
    rw [List.filter_eq_nil_iff]
    intro item _
    rw [decide_eq_true_eq]
    exact ((Nat.mod_lt (hash item.flowID).val h0).trans_le hc).ne
  rw [counterMax, hnone, List.foldl_nil]

end FOSketch
