import FOSketch.Driver
import FOSketch.Heavy.Response

/-!
# `App.cpp`

The application reads two sketch files, puts the heavy list of each in order, encrypts both under a fresh context, hands the
key to the enclave and sends it the message in every round. So every round is accepted, none of them follows a null
pointer, and after each of them the enclave answers with the sizes of the largest flows of the two files (`main_answers`).
-/

namespace FOSketch.App

open Memory Heavy Secure Driver

/-! ## The files -/

def greaterSItem (pi pj : Item) : Bool := decide (pj.size < pi.size)

/-- What `std::sort` by `greaterSItem` promises. -/
def Sorts (sort : List Item → List Item) : Prop :=
  ∀ l, (sort l).Perm l ∧ (sort l).Pairwise fun x y => greaterSItem y x = false

/-- The body of the loop of `readSketchFile`; `none` is `exit(-1)`. -/
def readFile (sort : List Item → List Item) (fin : Option (List Byte)) (pData : Nat) (DataSketch : Nat → Byte) :
    Option (Nat → Byte) :=
  match fin with
  | none => none
  | some fin =>
    let bytes := fin.take (TOTAL_MEM + 2)
    let DataSketch := store DataSketch pData bytes
    if bytes.length ≠ TOTAL_MEM + 2 then none
    else
      let myvector := sort (heavyList DataSketch pData)
      some (copy DataSketch (pData + heavyStart) (itemBytes fun i => myvector.getD i ⟨0, 0⟩) 0 HEAVY_MEM)

def readSketchFile (sort : List Item → List Item) (file : Nat → Option (List Byte)) (DataSketch : Nat → Byte) :
    Option (Nat → Byte) :=
  [0, 1].foldlM (fun DataSketch datafileCnt => readFile sort (file datafileCnt) (datafileCnt * (TOTAL_MEM + 2)) DataSketch)
    DataSketch

/-! ## The program -/

def alloc_gcm (key IV : List Byte) (h : IV.length = GCM_IV_SIZE) : Ctx := ⟨key, IV, h⟩

/-- `ecall_init`: the context of the enclave, which is zero but for the key. -/
def ecall_init (ovs_key : List Byte) : Ctx := { zeroCtx with key := ovs_key }

/-- `pack_message(&msgSketch, STAT, &global_ctx, DataSketch, 2*(2+TOTAL_MEM), 0)` -/
def sketchCall (DataSketch mem : Nat → Byte) : PackCall where
  message := emptyMessage
  type := .STAT
  payload := load DataSketch 0 (2 * (TOTAL_MEM + 2))
  mem := mem

def withMessage (msgSketch : Message) (ctx : Ctx) (r : Round) : Round := { r with pMsgSketch := msgSketch, pCtx := ctx }

/-- `main`: the calls of the enclave after `ecall_init`. The rounds get the message and the context of the program. -/
def main (evp : Evp) (sort : List Item → List Item) (file : Nat → Option (List Byte)) (key IV : List Byte)
    (h : IV.length = GCM_IV_SIZE) (mem : Nat → Byte) (rounds : List Round) : Option (List (Nat × Round)) :=
  match readSketchFile sort file fun _ => 0 with
  | none => none
  | some DataSketch =>
    let global_ctx := alloc_gcm key IV h
    let msgSketch := ((sketchCall DataSketch mem).run evp global_ctx).1
    some (FOS_test_ecall (rounds.map (withMessage msgSketch (ecall_init global_ctx.key))))

/-! ## What the files hold -/

def fileItems (fin : List Byte) : List Item := heavyList (store (fun _ => 0) 0 fin) 0

theorem heavyList_congr {p p' : Nat → Byte} {base base' : Nat}
    (h : ∀ a < HEAVY_MEM, p (base + heavyStart + a) = p' (base' + heavyStart + a)) :
    heavyList p base = heavyList p' base' := by
  refine List.map_congr_left fun i hi => readItem_congr fun k hk => ?_
  have hlt := List.mem_range.mp hi
  unfold NUM_HEAVY HEAVY_PAIR_SIZE at hlt
  rw [Nat.add_assoc (base + heavyStart), Nat.add_assoc (base' + heavyStart)]
  exact h _ (by unfold HEAVY_MEM at *; unfold sizeofItem; omega)

theorem heavyList_copy (p : Nat → Byte) (base : Nat) (items : Nat → Item) :
    heavyList (copy p (base + heavyStart) (itemBytes items) 0 HEAVY_MEM) base = load items 0 NUM_HEAVY := by
  refine List.map_congr_left fun i hi => ?_
  have hlt := List.mem_range.mp hi
  unfold NUM_HEAVY HEAVY_PAIR_SIZE at hlt
  rw [Nat.zero_add, ← readItem_itemBytes items i]
  refine readItem_congr fun k hk => ?_
  rw [Nat.add_assoc, copy_of_inside (by unfold HEAVY_MEM at *; unfold sizeofItem; omega), Nat.zero_add]

theorem load_getD (l : List Item) : load (fun i => l.getD i ⟨0, 0⟩) 0 l.length = l := by
  refine List.ext_getElem (length_load _ _ _) fun k hk hk' => ?_
  simp [load, hk']

theorem store_take {f : List Byte} {mem mem' : Nat → Byte} {d d' n k : Nat} (hk : k < n) (hn : n ≤ f.length) :
    store mem d (f.take n) (d + k) = store mem' d' f (d' + k) := by
  have hlt : k < (f.take n).length := by
    rw [List.length_take]
    omega
  unfold store
  rw [if_pos (Nat.le_add_right _ _), if_pos (Nat.le_add_right _ _), Nat.add_sub_cancel_left, Nat.add_sub_cancel_left,
    List.getD_eq_getElem _ _ hlt, List.getD_eq_getElem _ _ (by omega), List.getElem_take]

/-- One file: its items in order, and nothing in front of it is changed. -/
theorem readFile_spec {sort : List Item → List Item} (hsort : Sorts sort) {fin : Option (List Byte)} {pData : Nat}
    {mem mem' : Nat → Byte} (h : readFile sort fin pData mem = some mem') :
    ∃ f, fin = some f ∧ TOTAL_MEM + 2 ≤ f.length ∧ heavyList mem' pData = sort (fileItems f) ∧
      ∀ a < pData, mem' a = mem a := by
  unfold readFile at h
  cases fin with
  | none => cases h
  | some f =>
    dsimp only at h
    split_ifs at h with hlen
    rw [List.length_take] at hlen
    have hf : TOTAL_MEM + 2 ≤ f.length := by omega
    have hitems : heavyList (store mem pData (f.take (TOTAL_MEM + 2))) pData = fileItems f :=
      heavyList_congr fun a ha => by
        rw [Nat.add_assoc, Nat.add_assoc]
        exact store_take (by unfold TOTAL_MEM heavyStart; omega) hf
    rw [hitems, Option.some.injEq] at h
    subst h
    refine ⟨f, rfl, hf, ?_, fun a ha => ?_⟩
    · have hperm := (hsort (fileItems f)).1
      have hnum : (sort (fileItems f)).length = NUM_HEAVY := hperm.length_eq.trans (length_heavyList _ _)
      rw [heavyList_copy, ← hnum, load_getD]
    · rw [copy_of_outside (Or.inl (by omega)), store_of_outside (Or.inl ha)]

theorem readSketchFile_eq (sort : List Item → List Item) (file : Nat → Option (List Byte)) (mem : Nat → Byte) :
    readSketchFile sort file mem =
      (readFile sort (file 0) 0 mem).bind (readFile sort (file 1) (TOTAL_MEM + 2)) := by
  unfold readSketchFile
  simp only [List.foldlM_cons, List.foldlM_nil, bind_pure, Nat.zero_mul, Nat.one_mul]
  rfl

/-- Both files: the lists that are sent. -/
theorem readSketchFile_spec {sort : List Item → List Item} (hsort : Sorts sort) {file : Nat → Option (List Byte)}
    {mem DataSketch : Nat → Byte} (h : readSketchFile sort file mem = some DataSketch) :
    ∃ f₀ f₁, file 0 = some f₀ ∧ file 1 = some f₁ ∧
      received DataSketch = sort (fileItems f₀) ++ sort (fileItems f₁) := by
  rw [readSketchFile_eq, Option.bind_eq_some_iff] at h
  obtain ⟨first, hfirst, hsecond⟩ := h
  obtain ⟨f₀, hf₀, -, hlist₀, -⟩ := readFile_spec hsort hfirst
  obtain ⟨f₁, hf₁, -, hlist₁, hkeep⟩ := readFile_spec hsort hsecond
  have hzero : heavyList DataSketch 0 = heavyList first 0 :=
    heavyList_congr fun a ha => hkeep _ (by unfold TOTAL_MEM heavyStart; omega)
  exact ⟨f₀, f₁, hf₀, hf₁, by rw [received, hzero, hlist₀, hlist₁]⟩

def Readable (fin : Option (List Byte)) : Prop := ∃ f, fin = some f ∧ TOTAL_MEM + 2 ≤ f.length

theorem readFile_isSome_iff {sort : List Item → List Item} {fin : Option (List Byte)} {pData : Nat} {mem : Nat → Byte} :
    (readFile sort fin pData mem).isSome ↔ Readable fin := by
  unfold readFile Readable
  cases fin with
  | none => simp
  | some f => by_cases hf : TOTAL_MEM + 2 ≤ f.length <;> simp [hf]

/-- The program goes on exactly if both files can be read. -/
theorem readSketchFile_isSome_iff {sort : List Item → List Item} {file : Nat → Option (List Byte)} {mem : Nat → Byte} :
    (readSketchFile sort file mem).isSome ↔ Readable (file 0) ∧ Readable (file 1) := by
  rw [readSketchFile_eq, Option.isSome_bind]
  constructor
  · intro h
    obtain ⟨first, hfirst⟩ := Option.isSome_iff_exists.mp (Option.isSome_of_any h)
    rw [hfirst, Option.any_some] at h
    exact ⟨readFile_isSome_iff.mp (by rw [hfirst]; rfl), readFile_isSome_iff.mp h⟩
  · rintro ⟨h₀, h₁⟩
    obtain ⟨first, hfirst⟩ := Option.isSome_iff_exists.mp (readFile_isSome_iff.mpr h₀)
    rw [hfirst, Option.any_some]
    exact readFile_isSome_iff.mpr h₁

/-! ## The message -/

theorem received_congr {p p' : Nat → Byte} (h : ∀ a < 2 * (TOTAL_MEM + 2), p a = p' a) : received p = received p' := by
  have hpart {base : Nat} (hbase : base ≤ TOTAL_MEM + 2) : heavyList p base = heavyList p' base :=
    heavyList_congr fun a ha => h _ (by unfold TOTAL_MEM heavyStart at *; omega)
  rw [received, received, hpart (Nat.zero_le _), hpart le_rfl]

/-- A message with two sketches is accepted, by every context with its key. -/
theorem receive_packed {out : Outside} (he : out.evp.Lawful) {ctx ctx' : Ctx} (hkey : ctx'.key = ctx.key) {c : PackCall}
    (hlen : c.payload.length = 2 * (TOTAL_MEM + 2)) {m : Mallocs} {p : Nat → Byte} (hm : m.p2Sketch = some p) :
    ∃ p2Sketch, receive out m (c.run out.evp ctx).1 ctx' = some p2Sketch ∧
      load p2Sketch 0 (2 * (TOTAL_MEM + 2)) = c.payload := by
  have htotal : 2 * (TOTAL_MEM + 2) = 1183748 := by decide
  rw [htotal] at hlen ⊢
  have hfits : c.Fits := ⟨by omega, by omega⟩
  have hsize : (c.run out.evp ctx).1.payload_size = GCM_IV_SIZE + (1183748 : Nat) := by
    rw [payload_size_run out.evp ctx hfits, hlen]
  have hsketch : (2 * (TOTAL_MEM + 2) : Int) = (1183748 : Nat) := by
    rw [← htotal]
    push_cast
    rfl
  have hint : toInt32 ((c.run out.evp ctx).1.payload_size - GCM_IV_SIZE) = (1183748 : Nat) := by
    rw [hsize, toInt32, add_sub_cancel_left, Int.bmod_eq_of_le (by omega) (by omega)]
  obtain ⟨hout, hbytes⟩ := unpack_packed he ctx hfits hkey p
  rw [hlen] at hout hbytes
  refine ⟨_, ?_, hbytes⟩
  unfold receive
  dsimp only
  rw [hint, hm, if_neg (by omega), hsketch, if_neg (not_not.mpr rfl)]
  exact if_neg (not_not.mpr hout)

/-! ## The rounds -/

/-- A round whose message is accepted runs through, and keeps the list that it prepared. -/
theorem run_accepted {out : Outside} {r : Round} (h : accepted out r = true) (s : Globals) :
    ∃ s', run out s (commands r) = .ok s' ∧ s'.epoch.HeavyHitterList = (prepared out r s).epoch.HeavyHitterList := by
  obtain ⟨hcus, hst⟩ := isSome_prepared out r s
  rw [h, Bool.true_or] at hcus hst
  obtain ⟨pcus, hc, -⟩ := newSketch_ok .C (fun _ => hcus) .pDataCUSketch
  obtain ⟨pst, ht, -⟩ := newSketch_ok .T (fun _ => hst) .pDataStashTable
  obtain ⟨s', hrun, hepoch⟩ := run_sketchCommands (show (prepared out r s).noMoreTest = 0 from rfl) hc ht
  exact ⟨s', run_commands.trans hrun, by rw [hepoch]; rfl⟩

theorem run_accepted_rounds {out : Outside} {l : List Item} {rounds : List Round} (hne : rounds ≠ [])
    (h : ∀ r ∈ rounds, ∃ p2Sketch, receive out r.mallocs r.pMsgSketch r.pCtx = some p2Sketch ∧
      ListsSorted p2Sketch ∧ received p2Sketch = l) (s : Globals) :
    ∃ s', run out s (FOS_test_ecall rounds) = .ok s' ∧
      ∀ k ≤ NUM_HEAVY, OResponseHeavyHitter s'.epoch k = (List.range k).map (rankItem l) := by
  induction rounds generalizing s with
  | nil => exact absurd rfl hne
  | cons r rounds ih =>
    obtain ⟨p2Sketch, hp, hs, hl⟩ := h r List.mem_cons_self
    have haccepted : accepted out r = true := by
      rw [accepted, hp]
      rfl
    obtain ⟨s', hrun, hlist⟩ := run_accepted haccepted s
    have hcons : FOS_test_ecall (r :: rounds) = commands r ++ FOS_test_ecall rounds := rfl
    rw [hcons, run_append, hrun]
    by_cases hlast : rounds = []
    · subst hlast
      refine ⟨s', rfl, fun k hk => ?_⟩
      have hsame : OResponseHeavyHitter s'.epoch k = OResponseHeavyHitter (prepared out r s).epoch k := by
        unfold OResponseHeavyHitter
        rw [hlist]
      rw [hsame, ← hl]
      exact OResponseHeavyHitter_eq hp hs hk
    · exact ih hlast (fun r' hr' => h r' (List.mem_cons_of_mem r hr')) s'

theorem sizesDESC_congr {l l' : List Item} (h : l'.Perm l) : sizesDESC l' = sizesDESC l := by
  refine (((sizesDESC_perm l').trans (h.map Item.size)).trans (sizesDESC_perm l).symm).eq_of_pairwise ?_
    (sizesDESC_pairwise l') (sizesDESC_pairwise l)
  exact fun a b _ _ hab hba => le_antisymm hba hab

theorem listsSorted_of_sorts {sort : List Item → List Item} (hsort : Sorts sort) {p2Sketch : Nat → Byte} {f f' : List Byte}
    (h : received p2Sketch = sort (fileItems f) ++ sort (fileItems f')) : ListsSorted p2Sketch := by
  have hsorted (l : List Item) : (sort l).Pairwise fun x y => y.size ≤ x.size :=
    (hsort l).2.imp fun hxy => not_lt.mp (of_decide_eq_false hxy)
  have hlen : (heavyList p2Sketch 0).length = (sort (fileItems f)).length := by
    rw [length_heavyList, (hsort _).1.length_eq, fileItems, length_heavyList]
  obtain ⟨hfirst, hsecond⟩ := List.append_inj h hlen
  intro base hbase
  obtain rfl | hbase := List.mem_cons.mp hbase
  · rw [hfirst]
    exact hsorted _
  · rw [List.mem_singleton.mp hbase, hsecond]
    exact hsorted _

/-- **The program.** For every two sketch files, every key, every order that `std::sort` gives and every draw of the enclave,
no round follows a null pointer, and the enclave answers with the sizes of the largest flows of both files. -/
theorem main_answers {out : Outside} (he : out.evp.Lawful) {sort : List Item → List Item} (hsort : Sorts sort)
    {file : Nat → Option (List Byte)} {f₀ f₁ : List Byte} (h₀ : file 0 = some f₀) (h₁ : file 1 = some f₁)
    (hf₀ : TOTAL_MEM + 2 ≤ f₀.length) (hf₁ : TOTAL_MEM + 2 ≤ f₁.length) (key : List Byte) {IV : List Byte}
    (hIV : IV.length = GCM_IV_SIZE) (mem : Nat → Byte) {rounds : List Round} (hne : rounds ≠ [])
    (hmalloc : ∀ r ∈ rounds, r.mallocs.p2Sketch ≠ none) :
    ∃ calls s, main out.evp sort file key IV hIV mem rounds = some calls ∧ run out start calls = .ok s ∧
      ∀ k ≤ NUM_HEAVY, OResponseHeavyHitter s.epoch k = (List.range k).map (rankItem (fileItems f₀ ++ fileItems f₁)) := by
  have hreadable : (readSketchFile sort file fun _ => 0).isSome :=
    readSketchFile_isSome_iff.mpr ⟨⟨f₀, h₀, hf₀⟩, f₁, h₁, hf₁⟩
  obtain ⟨DataSketch, hread⟩ := Option.isSome_iff_exists.mp hreadable
  obtain ⟨f₀', f₁', h₀', h₁', hreceived⟩ := readSketchFile_spec hsort hread
  obtain rfl : f₀ = f₀' := Option.some.inj (h₀.symm.trans h₀')
  obtain rfl : f₁ = f₁' := Option.some.inj (h₁.symm.trans h₁')
  have hperm : (sort (fileItems f₀) ++ sort (fileItems f₁)).Perm (fileItems f₀ ++ fileItems f₁) :=
    (hsort _).1.append (hsort _).1
  have hrank : rankItem (sort (fileItems f₀) ++ sort (fileItems f₁)) = rankItem (fileItems f₀ ++ fileItems f₁) := by
    funext i
    rw [rankItem, rankItem, sizesDESC_congr hperm]
  have hround : ∀ r ∈ rounds.map (withMessage ((sketchCall DataSketch mem).run out.evp (alloc_gcm key IV hIV)).1
      (ecall_init key)), ∃ p2Sketch, receive out r.mallocs r.pMsgSketch r.pCtx = some p2Sketch ∧
        ListsSorted p2Sketch ∧ received p2Sketch = sort (fileItems f₀) ++ sort (fileItems f₁) := by
    intro r' hr'
    obtain ⟨r, hr, rfl⟩ := List.mem_map.mp hr'
    obtain ⟨p, hp⟩ := Option.ne_none_iff_exists'.mp (hmalloc r hr)
    have hkey : (ecall_init key).key = (alloc_gcm key IV hIV).key := rfl
    have hlen : (sketchCall DataSketch mem).payload.length = 2 * (TOTAL_MEM + 2) := by
      unfold sketchCall
      rw [length_load]
    obtain ⟨p2Sketch, hreceive, hload⟩ := receive_packed he hkey hlen hp
    have hsent : received p2Sketch = sort (fileItems f₀) ++ sort (fileItems f₁) := by
      rw [← hreceived]
      refine received_congr fun a ha => ?_
      have hget := congrArg (·[a]?) hload
      simpa [sketchCall, getElem?_load _ _ ha] using hget
    exact ⟨p2Sketch, hreceive, listsSorted_of_sorts hsort hsent, hsent⟩
  obtain ⟨s, hrun, hanswers⟩ := run_accepted_rounds (by simpa using hne) hround start
  refine ⟨_, s, ?_, hrun, fun k hk => ?_⟩
  · rw [main, hread]
    rfl
  · rw [hanswers k hk, hrank]

/-! ### Two files with flows -/

def stableSort (l : List Item) : List Item := l.mergeSort fun x y => !greaterSItem y x

theorem stableSort_sorts : Sorts stableSort := by
  refine fun l => ⟨List.mergeSort_perm _ _, ?_⟩
  have htrans (x y z : Item) (hxy : !greaterSItem y x) (hyz : !greaterSItem z y) : !greaterSItem z x := by
    simp only [greaterSItem, Bool.not_eq_true', decide_eq_false_iff_not, not_lt] at *
    exact hyz.trans hxy
  have htotal (x y : Item) : !greaterSItem y x || !greaterSItem x y := by
    simpa [greaterSItem] using le_total y.size x.size
  exact (List.pairwise_mergeSort htrans htotal l).imp fun h => by simpa using h

/-- Bytes that count in steps of `k`. -/
def counting (k : Nat) : List Byte := (List.range (TOTAL_MEM + 2)).map fun a => Fin.ofNat _ (k * a)

theorem length_counting (k : Nat) : (counting k).length = TOTAL_MEM + 2 := by
  rw [counting, List.length_map, List.length_range]

theorem main_answers_counting :
    ∃ calls s, main noOutside.evp stableSort (fun i => some (counting (i + 1))) zeroCtx.key zeroCtx.IV zeroCtx.IV_length
        (fun _ => 0) (List.replicate 2 ⟨noDraws, noMallocs, emptyMessage, zeroCtx, true, true⟩) = some calls ∧
      run noOutside start calls = .ok s ∧
      ∀ k ≤ NUM_HEAVY, OResponseHeavyHitter s.epoch k =
        (List.range k).map (rankItem (fileItems (counting 1) ++ fileItems (counting 2))) := by
  refine main_answers aesGcm_lawful stableSort_sorts rfl rfl (length_counting 1).ge (length_counting 2).ge zeroCtx.key
    zeroCtx.IV_length (fun _ => 0) (List.cons_ne_nil _ _) ?_
  intro r hr
  rw [List.eq_of_mem_replicate hr]
  exact Option.some_ne_none _

end FOSketch.App
