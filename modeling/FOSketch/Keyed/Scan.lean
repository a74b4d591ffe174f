import Mathlib

/-!
# Keyed lists and the retiring scan

Records with a key and a value in a join semilattice, kept in a list. `gather` joins the values under one key, whatever
the order of the list. `maxScan` walks the list once with a carry: a record joins the carry of its run, and every record
that is not the last of its run is retired to the largest key. On a list in key order the scan leaves under each key one
record, which holds the join of the whole run (`count_maxScan`, `gather_maxScan`).
-/

namespace FOSketch.Keyed

variable {α β κ D : Type*}

/-! ## Values under a key -/

section Gather
variable [DecidableEq κ] [SemilatticeSup D] [OrderBot D]

/-- The join of the values under the key `b`. -/
def gather (key : α → κ) (val : α → D) (l : List α) (b : κ) : D :=
  l.foldr (fun x d => if key x = b then val x ⊔ d else d) ⊥

variable (key : α → κ) (val : α → D)

@[simp] theorem gather_nil (b : κ) : gather key val [] b = ⊥ := rfl

theorem gather_cons (x : α) (l : List α) (b : κ) :
    gather key val (x :: l) b = if key x = b then val x ⊔ gather key val l b else gather key val l b := rfl

variable {key} {val}

theorem gather_cons_of_eq {x : α} {l : List α} {b : κ} (h : key x = b) :
    gather key val (x :: l) b = val x ⊔ gather key val l b := if_pos h

theorem gather_cons_of_ne {x : α} {l : List α} {b : κ} (h : key x ≠ b) :
    gather key val (x :: l) b = gather key val l b := if_neg h

theorem gather_append (l r : List α) (b : κ) : gather key val (l ++ r) b = gather key val l b ⊔ gather key val r b := by
  induction l with
  | nil => rw [List.nil_append, gather_nil, bot_sup_eq]
  | cons x l ih =>
    rw [List.cons_append, gather_cons, gather_cons, ih]
    split_ifs
    · rw [sup_assoc]
    · rfl

theorem gather_perm {l l' : List α} (h : l.Perm l') (b : κ) : gather key val l b = gather key val l' b := by
  induction h with
  | nil => rfl
  | cons x _ ih => rw [gather_cons, gather_cons, ih]
  | swap x y l =>
    simp only [gather_cons]
    split_ifs
    · rw [sup_left_comm]
    all_goals rfl
  | trans _ _ ih1 ih2 => rw [ih1, ih2]

theorem gather_of_forall_ne {l : List α} {b : κ} (h : ∀ x ∈ l, key x ≠ b) : gather key val l b = ⊥ := by
  induction l with
  | nil => rfl
  | cons x l ih =>
    rw [gather_cons_of_ne (h x List.mem_cons_self)]
    exact ih fun y hy => h y (List.mem_cons_of_mem x hy)

theorem gather_of_count_one (val : α → D) {l : List α} {x : α} (hx : x ∈ l) (h : (l.map key).count (key x) = 1) :
    gather key val l (key x) = val x := by
  obtain ⟨s, t, rfl⟩ := List.append_of_mem hx
  rw [List.map_append, List.map_cons, List.count_append, List.count_cons_self] at h
  have hs : ∀ y ∈ s, key y ≠ key x := fun y hy he =>
    absurd (List.count_pos_iff.mpr (he ▸ List.mem_map_of_mem hy : key x ∈ s.map key)) (by omega)
  have ht : ∀ y ∈ t, key y ≠ key x := fun y hy he =>
    absurd (List.count_pos_iff.mpr (he ▸ List.mem_map_of_mem hy : key x ∈ t.map key)) (by omega)
  rw [gather_append, gather_cons_of_eq rfl, gather_of_forall_ne hs, gather_of_forall_ne ht, bot_sup_eq, sup_bot_eq]

end Gather

/-! ## The scan -/

/-- What the scan does to single records: read the key, join one record into another, give a record up. -/
structure Merging (α κ : Type*) where
  key : α → κ
  join : α → α → α
  retire : α → α

/-- The record `x` when the carry is `prev`: `cond` says that a run starts here. -/
def Merging.take (m : Merging α κ) (x prev : α) (cond : Bool) : α := if cond then x else m.join x prev

section Scan
variable [LinearOrder κ]

/-- The scan from the carry `prev`; `cond` says that a run starts at the head of the list. -/
def maxScan (m : Merging α κ) : List α → α → Bool → List α
  | [], _, _ => []
  | [x], prev, cond => [m.take x prev cond]
  | x :: y :: l, prev, cond =>
    let x := m.take x prev cond
    let cond := decide (m.key x < m.key y)
    (if cond then x else m.retire x) :: maxScan m (y :: l) x cond

@[simp] theorem length_maxScan (m : Merging α κ) (l : List α) (prev : α) (cond : Bool) :
    (maxScan m l prev cond).length = l.length := by
  induction l generalizing prev cond with
  | nil => rfl
  | cons x l ih =>
    cases l with
    | nil => rfl
    | cons y l =>
      rw [maxScan, List.length_cons, ih]; rfl

/-- A run of the scan does not read the carry it starts from. -/
theorem maxScan_true (m : Merging α κ) (l : List α) (prev prev' : α) :
    maxScan m l prev true = maxScan m l prev' true := by
  match l with
  | [] => rfl
  | [_] => rfl
  | _ :: _ :: _ => rfl

structure Merging.Image (m : Merging α κ) (m' : Merging β κ) (f : α → β) : Prop where
  key : ∀ x, m'.key (f x) = m.key x
  join : ∀ x y, f (m.join x y) = m'.join (f x) (f y)
  retire : ∀ x, f (m.retire x) = m'.retire (f x)

/-- The scan of the images is the image of the scan. -/
theorem maxScan_map {m : Merging α κ} {m' : Merging β κ} {f : α → β} (h : m.Image m' f) (l : List α) (prev : α)
    (cond : Bool) : (maxScan m l prev cond).map f = maxScan m' (l.map f) (f prev) cond := by
  have htake : ∀ x prev cond, f (m.take x prev cond) = m'.take (f x) (f prev) cond := by
    intro x prev cond
    unfold Merging.take
    split_ifs
    · rfl
    · exact h.join x prev
  induction l generalizing prev cond with
  | nil => rfl
  | cons x l ih =>
    cases l with
    | nil => simp only [maxScan, List.map_cons, List.map_nil, htake]
    | cons y l =>
      simp only [maxScan, List.map_cons] at ih ⊢
      rw [ih, apply_ite f, h.retire, ← htake, h.key, h.key]

theorem exists_key_maxScan {m : Merging α κ} (hj : ∀ x y, m.key x = m.key y → m.key (m.join x y) = m.key x) {x : α}
    {l : List α} {prev : α} {cond : Bool} (hx : ∀ y ∈ l, m.key x ≤ m.key y) (hp : cond = false → m.key prev = m.key x) :
    ∃ z ∈ maxScan m (x :: l) prev cond, m.key z = m.key x := by
  have hkey : ∀ y prev cond, (cond = false → m.key prev = m.key y) → m.key (m.take y prev cond) = m.key y := by
    intro y prev cond hp
    cases cond
    · exact hj y prev (hp rfl).symm
    · rfl
  induction l generalizing x prev cond with
  | nil => exact ⟨_, List.mem_singleton_self _, hkey x prev cond hp⟩
  | cons y l ih =>
    rw [maxScan, hkey x prev cond hp]
    rcases (hx y List.mem_cons_self).lt_or_eq with hlt | heq
    · refine ⟨_, List.mem_cons_self, ?_⟩
      rw [decide_eq_true hlt, if_pos rfl, hkey x prev cond hp]
    · rw [decide_eq_false (by rw [heq]; exact lt_irrefl _), heq]
      have hrest : ∃ z ∈ maxScan m (y :: l) (m.take x prev cond) false, m.key z = m.key y :=
        ih (fun w hw => heq ▸ hx w (List.mem_cons_of_mem y hw)) fun _ => (hkey x prev cond hp).trans heq
      obtain ⟨z, hz, hzkey⟩ := hrest
      exact ⟨z, List.mem_cons_of_mem _ hz, hzkey⟩

end Scan

/-! ## The scan of a list in key order -/

section Sorted
variable [LinearOrder κ] [OrderTop κ] [SemilatticeSup D] [OrderBot D]

/-- Records of one key join under that key, and a retired record has the largest key. -/
structure Merging.Lawful (m : Merging α κ) (val : α → D) : Prop where
  key_join : ∀ x y, m.key x = m.key y → m.key (m.join x y) = m.key x
  val_join : ∀ x y, val (m.join x y) = val x ⊔ val y
  key_retire : ∀ x, m.key (m.retire x) = ⊤

variable {m : Merging α κ} {val : α → D}

omit [OrderBot D] in
theorem key_take (hm : m.Lawful val) {x prev : α} {cond : Bool} (h : cond = false → m.key prev = m.key x) :
    m.key (m.take x prev cond) = m.key x := by
  cases cond
  · exact hm.key_join x prev (h rfl).symm
  · rfl

def carried (m : Merging α κ) (val : α → D) (x prev : α) (cond : Bool) (b : κ) : D :=
  if m.key x = b then (if cond then ⊥ else val prev) else ⊥

theorem val_take (hm : m.Lawful val) (x prev : α) (cond : Bool) :
    val (m.take x prev cond) = val x ⊔ carried m val x prev cond (m.key x) := by
  unfold Merging.take carried
  cases cond
  · rw [if_pos rfl]; exact hm.val_join x prev
  · rw [if_pos rfl, if_pos rfl, if_pos rfl, sup_bot_eq]

omit [OrderTop κ] in
theorem carried_true (x prev : α) (b : κ) : carried m val x prev true b = ⊥ := by
  rw [carried, if_pos rfl, ite_self]

theorem gather_maxScan_cons (hm : m.Lawful val) {x : α} {l : List α} {prev : α} {cond : Bool}
    (hl : (x :: l).Pairwise fun x y => m.key x ≤ m.key y) (h : cond = false → m.key prev = m.key x) {b : κ}
    (hb : b ≠ ⊤) : gather m.key val (maxScan m (x :: l) prev cond) b =
      gather m.key val (x :: l) b ⊔ carried m val x prev cond b := by
  induction l generalizing x prev cond with
  | nil =>
    rw [maxScan, gather_cons, gather_cons, gather_nil, key_take hm h, val_take hm]
    by_cases hx : m.key x = b
    · rw [if_pos hx, if_pos hx, hx]; ac_rfl
    · rw [if_neg hx, if_neg hx, carried, if_neg hx, sup_bot_eq]
  | cons y l ih =>
    have hxy := (List.pairwise_cons.mp hl).1
    have hl' := (List.pairwise_cons.mp hl).2
    rw [maxScan, key_take hm h]
    rcases (hxy y List.mem_cons_self).lt_or_eq with hlt | heq
    · -- the run ends at `x`
      rw [decide_eq_true hlt, if_pos rfl, gather_cons, key_take hm h, val_take hm,
        ih hl' (fun h => absurd h (by decide)), gather_cons (x := x), carried_true, sup_bot_eq]
      by_cases hx : m.key x = b
      · rw [if_pos hx, if_pos hx, hx]; ac_rfl
      · rw [if_neg hx, if_neg hx, carried, if_neg hx, sup_bot_eq]
    · -- the run goes on, so `x` retires and `y` carries it
      rw [decide_eq_false (by rw [heq]; exact lt_irrefl _), if_neg (by simp), gather_cons_of_ne
        (by rw [hm.key_retire]; exact hb.symm), ih hl' (fun _ => by rw [key_take hm h, heq]), gather_cons (x := x)]
      by_cases hx : m.key x = b
      · rw [if_pos hx, carried, if_pos (heq ▸ hx), if_neg (by simp), val_take hm, hx]; ac_rfl
      · rw [if_neg hx, carried, if_neg (heq ▸ hx), carried, if_neg hx]

omit [OrderBot D] in
theorem count_maxScan_cons (hm : m.Lawful val) {x : α} {l : List α} {prev : α} {cond : Bool}
    (hl : (x :: l).Pairwise fun x y => m.key x ≤ m.key y) (h : cond = false → m.key prev = m.key x) {b : κ}
    (hb : b ≠ ⊤) : ((maxScan m (x :: l) prev cond).map m.key).count b = if b ∈ (x :: l).map m.key then 1 else 0 := by
  induction l generalizing x prev cond with
  | nil =>
    rw [maxScan, List.map_singleton, key_take hm h, List.map_singleton, List.count_singleton]
    refine if_congr ?_ rfl rfl
    rw [beq_iff_eq, List.mem_singleton]
    exact eq_comm
  | cons y l ih =>
    have hxy := (List.pairwise_cons.mp hl).1
    have hl' := (List.pairwise_cons.mp hl).2
    rw [maxScan, key_take hm h, List.map_cons, List.map_cons (l := y :: l), List.count_cons]
    rcases (hxy y List.mem_cons_self).lt_or_eq with hlt | heq
    · rw [decide_eq_true hlt, if_pos rfl, key_take hm h, ih hl' (fun h => absurd h (by decide))]
      by_cases hx : m.key x = b
      · have hnot : b ∉ (y :: l).map m.key := by
          rw [List.mem_map]
          rintro ⟨z, hz, rfl⟩
          have hyz : m.key y ≤ m.key z := by
            rcases List.mem_cons.mp hz with rfl | hz
            · exact le_refl _
            · exact (List.pairwise_cons.mp hl').1 z hz
          exact absurd hx (hlt.trans_le hyz).ne
        rw [if_neg hnot, if_pos (beq_iff_eq.mpr hx), if_pos (hx ▸ List.mem_cons_self)]
      · rw [if_neg (c := (m.key x == b) = true) (by rwa [beq_iff_eq]), Nat.add_zero]
        exact if_congr ⟨List.mem_cons_of_mem _, fun h => (List.mem_cons.mp h).resolve_left (Ne.symm hx)⟩ rfl rfl
    · rw [decide_eq_false (by rw [heq]; exact lt_irrefl _), if_neg Bool.false_ne_true, hm.key_retire,
        ih hl' (fun _ => by rw [key_take hm h, heq]), if_neg (c := (⊤ == b) = true) (by rw [beq_iff_eq]; exact hb.symm),
        Nat.add_zero]
      refine if_congr ⟨List.mem_cons_of_mem _, fun h => ?_⟩ rfl rfl
      rcases List.mem_cons.mp h with rfl | h
      · exact heq ▸ List.mem_cons_self
      · exact h

/-- **The scan** keeps what is stored under every key but the largest. -/
theorem gather_maxScan (hm : m.Lawful val) {l : List α} (hl : l.Pairwise fun x y => m.key x ≤ m.key y) (prev : α) {b : κ}
    (hb : b ≠ ⊤) : gather m.key val (maxScan m l prev true) b = gather m.key val l b := by
  cases l with
  | nil => rfl
  | cons x l =>
    rw [gather_maxScan_cons hm hl (fun h => absurd h (by decide)) hb, carried_true,
      sup_bot_eq]

omit [OrderBot D] in
/-- **The scan** leaves one record under every key of the list but the largest. -/
theorem count_maxScan (hm : m.Lawful val) {l : List α} (hl : l.Pairwise fun x y => m.key x ≤ m.key y) (prev : α) {b : κ}
    (hb : b ≠ ⊤) : ((maxScan m l prev true).map m.key).count b = if b ∈ l.map m.key then 1 else 0 := by
  cases l with
  | nil => simp [maxScan]
  | cons x l => exact count_maxScan_cons hm hl (fun h => absurd h (by decide)) hb

end Sorted

/-! ## Lists in key order -/

/-- Where `p` holds only of a front of the list, the elements with `p` are that front. -/
theorem takeWhile_eq_filter {p : α → Bool} {l : List α} (hl : l.Pairwise fun x y => p y = true → p x = true) :
    l.takeWhile p = l.filter p := by
  induction l with
  | nil => rfl
  | cons x l ih =>
    obtain ⟨hx, hl'⟩ := List.pairwise_cons.mp hl
    cases hpx : p x with
    | true => rw [List.takeWhile_cons_of_pos hpx, List.filter_cons_of_pos hpx, ih hl']
    | false =>
      have hnone : ∀ y ∈ x :: l, ¬ p y = true := by
        intro y hy hpy
        rcases List.mem_cons.mp hy with rfl | hy
        · exact absurd hpy (by simp [hpx])
        · exact absurd (hx y hy hpy) (by simp [hpx])
      rw [List.takeWhile_cons_of_neg (by simp [hpx]), List.filter_eq_nil_iff.mpr hnone]

section Order
variable [LinearOrder κ] [OrderTop κ] {key : α → κ}

/-- In key order, the records below the largest key come first. -/
theorem eq_top_of_mem_drop {l : List α} (hl : l.Pairwise fun x y => key x ≤ key y) {k : Nat}
    (hk : l.countP (fun x => decide (key x ≠ ⊤)) ≤ k) : ∀ x ∈ l.drop k, key x = ⊤ := by
  intro x hx
  by_contra hne
  have hlen : (l.take k).length = k := by
    have := List.length_pos_of_mem hx
    rw [List.length_drop] at this
    rw [List.length_take]; omega
  rw [← List.take_append_drop k l, List.pairwise_append] at hl
  have htake : (l.take k).countP (fun x => decide (key x ≠ ⊤)) = k := by
    rw [List.countP_eq_length.mpr, hlen]
    intro y hy
    exact decide_eq_true ((hl.2.2 y hy x hx).trans_lt (lt_top_iff_ne_top.mpr hne)).ne
  have hdrop : 0 < (l.drop k).countP fun x => decide (key x ≠ ⊤) :=
    List.countP_pos_iff.mpr ⟨x, hx, decide_eq_true hne⟩
  rw [← List.take_append_drop k l, List.countP_append] at hk
  omega

omit [OrderTop κ] in
theorem map_key_eq_of_perm {l : List α} {ks : List κ} (hl : l.Pairwise fun x y => key x ≤ key y)
    (hks : ks.Pairwise (· ≤ ·)) (h : (l.map key).Perm ks) : l.map key = ks :=
  h.eq_of_pairwise (fun _ _ _ _ => le_antisymm) (List.pairwise_map.mpr hl) hks

omit [OrderTop κ] in
/-- Where a list is not in key order, the key falls from some record to the next. -/
theorem exists_descent {l : List α} (h : ¬l.Pairwise fun x y => key x ≤ key y) :
    ∃ a c e b, l = a ++ c :: e :: b ∧ key e < key c := by
  induction l with
  | nil => exact absurd List.Pairwise.nil h
  | cons x l ih =>
    cases l with
    | nil => exact absurd (List.pairwise_singleton _ _) h
    | cons y l =>
      by_cases hxy : key y < key x
      · exact ⟨[], x, y, l, rfl, hxy⟩
      · have hnot : ¬(y :: l).Pairwise fun x y => key x ≤ key y := by
          refine fun hl => h (List.pairwise_cons.mpr ⟨fun z hz => ?_, hl⟩)
          rcases List.mem_cons.mp hz with rfl | hz
          · exact not_lt.mp hxy
          · exact (not_lt.mp hxy).trans ((List.pairwise_cons.mp hl).1 z hz)
        obtain ⟨a, c, e, b, hl, hlt⟩ := ih hnot
        exact ⟨x :: a, c, e, b, by rw [hl]; rfl, hlt⟩

omit [OrderTop κ] in
theorem key_lt_iff (key : α → κ) {l : List α} (hl : l.Pairwise fun x y => key x ≤ key y) {i : Nat} (hi : i < l.length)
    (b : κ) :
    key l[i] < b ↔ i < l.countP fun x => decide (key x < b) := by
  induction l generalizing i with
  | nil => exact absurd hi (Nat.not_lt_zero i)
  | cons x l ih =>
    obtain ⟨hx, hl⟩ := List.pairwise_cons.mp hl
    by_cases hb : key x < b
    · rw [List.countP_cons_of_pos (p := fun x => decide (key x < b)) (decide_eq_true hb)]
      cases i with
      | zero => exact iff_of_true hb (by omega)
      | succ i => rw [List.getElem_cons_succ, ih hl, Nat.succ_lt_succ_iff]
    · have hnone : ∀ y ∈ x :: l, ¬key y < b := by
        intro y hy
        rcases List.mem_cons.mp hy with rfl | hy
        · exact hb
        · exact not_lt.mpr ((not_lt.mp hb).trans (hx y hy))
      apply iff_of_false (hnone _ (List.getElem_mem hi))
      rw [List.countP_eq_zero.mpr fun y hy => by simpa using hnone y hy]
      omega

/-- Two lists with the same keys below the largest differ, up to order, in how often they have the largest. -/
theorem perm_append_replicate_top (ks ks' : List κ) (htop : ⊤ ∉ ks') (h : ∀ b ≠ ⊤, ks.count b = ks'.count b) :
    ks.Perm (ks' ++ List.replicate (ks.length - ks'.length) ⊤) := by
  have hlow : (ks.filter fun b => decide (b ≠ ⊤)).Perm ks' := by
    rw [List.perm_iff_count]
    intro b
    by_cases hb : b = ⊤
    · rw [hb, List.count_eq_zero.mpr htop, List.count_eq_zero.mpr]
      simp
    · rw [List.count_filter (by simpa using hb), h b hb]
  have hsplit := List.filter_append_perm (fun b => decide (b ≠ ⊤)) ks
  have hhigh : (ks.filter fun b => !decide (b ≠ ⊤)) = List.replicate (ks.length - ks'.length) ⊤ := by
    rw [List.eq_replicate_iff]
    constructor
    · rw [← hsplit.length_eq, List.length_append, hlow.length_eq, Nat.add_sub_cancel_left]
    · simp
  rw [hhigh] at hsplit
  exact hsplit.symm.trans (hlow.append_right _)

theorem gather_drop_top [SemilatticeSup D] [OrderBot D] (key : α → κ) {val : α → D} {l : List α} {k : Nat} {b : κ}
    (hb : b ≠ ⊤) (h : ∀ x ∈ l.drop k, key x = ⊤) : gather key val (l.take k) b = gather key val l b := by
  have h0 : gather key val (l.drop k) b = ⊥ := gather_of_forall_ne fun x hx => by rw [h x hx]; exact hb.symm
  conv_rhs => rw [← List.take_append_drop k l, gather_append, h0, sup_bot_eq]

end Order

/-! ## A pass over the whole list -/

section Pass
variable [LinearOrder κ] [OrderTop κ] [SemilatticeSup D] [OrderBot D] {m : Merging α κ} {val : α → D}

/-- The scan of the first records of a list in key order, with no key but the largest behind them. -/
theorem gather_maxScan_take (hm : m.Lawful val) {l : List α} (hl : l.Pairwise fun x y => m.key x ≤ m.key y) {num : Nat}
    (hd : ∀ x ∈ l.drop num, m.key x = ⊤) (prev : α) {b : κ} (hb : b ≠ ⊤) :
    gather m.key val (maxScan m (l.take num) prev true ++ l.drop num) b = gather m.key val l b := by
  have h0 : gather m.key val (l.drop num) b = ⊥ := gather_of_forall_ne fun x hx => by rw [hd x hx]; exact hb.symm
  rw [gather_append, gather_maxScan hm (hl.sublist (List.take_sublist _ _)) prev hb, h0, sup_bot_eq,
    gather_drop_top m.key hb hd]

omit [OrderBot D] in
theorem count_maxScan_take (hm : m.Lawful val) {l : List α} (hl : l.Pairwise fun x y => m.key x ≤ m.key y) {num : Nat}
    (hd : ∀ x ∈ l.drop num, m.key x = ⊤) (prev : α) {b : κ} (hb : b ≠ ⊤) :
    ((maxScan m (l.take num) prev true ++ l.drop num).map m.key).count b = if b ∈ l.map m.key then 1 else 0 := by
  have hnot : b ∉ (l.drop num).map m.key := by
    rw [List.mem_map]
    rintro ⟨x, hx, rfl⟩
    exact hb (hd x hx)
  rw [List.map_append, List.count_append, count_maxScan hm (hl.sublist (List.take_sublist _ _)) prev hb,
    List.count_eq_zero.mpr hnot, Nat.add_zero]
  refine if_congr ?_ rfl rfl
  conv_rhs => rw [← List.take_append_drop num l, List.map_append, List.mem_append]
  exact ⟨.inl, fun h => h.resolve_right hnot⟩

/-- A list in key order with one record under each of the keys `ks`, in order, and else only the largest key. -/
theorem getElem?_of_count {key : α → κ} (val : α → D) {l : List α} (hl : l.Pairwise fun x y => key x ≤ key y)
    {ks : List κ} (hks : ks.Pairwise (· < ·)) (htop : ⊤ ∉ ks)
    (hcount : ∀ b ≠ ⊤, (l.map key).count b = if b ∈ ks then 1 else 0) {k : Nat} {b : κ} (hk : ks[k]? = some b) :
    ∃ x, l[k]? = some x ∧ key x = b ∧ val x = gather key val l b := by
  have hmem : b ∈ ks := List.mem_of_getElem? hk
  have hb : b ≠ ⊤ := ne_of_mem_of_not_mem hmem htop
  have hperm : (l.map key).Perm (ks ++ List.replicate ((l.map key).length - ks.length) ⊤) := by
    refine perm_append_replicate_top _ _ htop fun c hc => ?_
    have hnodup : ks.Nodup := hks.imp ne_of_lt
    rw [hcount c hc, hnodup.count]
  have hsorted : (ks ++ List.replicate ((l.map key).length - ks.length) ⊤).Pairwise (· ≤ ·) := by
    rw [List.pairwise_append]
    refine ⟨hks.imp le_of_lt, List.pairwise_replicate.mpr (.inr le_rfl), fun c _ d hd => ?_⟩
    rw [List.eq_of_mem_replicate hd]
    exact le_top
  have hkeys := map_key_eq_of_perm hl hsorted hperm
  have hkth : (l.map key)[k]? = some b := by
    rw [hkeys, List.getElem?_append_left (List.getElem?_eq_some_iff.mp hk).1, hk]
  rw [List.getElem?_map] at hkth
  obtain ⟨x, hx, rfl⟩ := Option.map_eq_some_iff.mp hkth
  refine ⟨x, hx, rfl, (gather_of_count_one val (List.mem_of_getElem? hx) ?_).symm⟩
  rw [hcount _ hb, if_pos hmem]

/-- **A pass**: a list is put in key order, its first records are scanned, and it is put in order again. When no key but the
largest lies behind those, the first records at the end are one for each key `ks` of the list, and hold all that lay under it. -/
theorem pass_val (hm : m.Lawful val) {l l' r : List α} {num : Nat} {prev : α}
    (hperm : l'.Perm l) (hl' : l'.Pairwise fun x y => m.key x ≤ m.key y)
    (hscan : r.Perm (maxScan m (l'.take num) prev true ++ l'.drop num)) (hr : r.Pairwise fun x y => m.key x ≤ m.key y)
    (hnum : l.countP (fun x => decide (m.key x ≠ ⊤)) ≤ num) {ks : List κ} (hks : ks.Pairwise (· < ·)) (htop : ⊤ ∉ ks)
    (hkeys : ∀ b ≠ ⊤, b ∈ l.map m.key ↔ b ∈ ks) {k : Nat} {b : κ} (hk : ks[k]? = some b) :
    ∃ x, r[k]? = some x ∧ m.key x = b ∧ val x = gather m.key val l b := by
  have hd : ∀ x ∈ l'.drop num, m.key x = ⊤ := eq_top_of_mem_drop hl' (by rwa [hperm.countP_eq])
  have hb : b ≠ ⊤ := ne_of_mem_of_not_mem (List.mem_of_getElem? hk) htop
  have hcount : ∀ c ≠ ⊤, (r.map m.key).count c = if c ∈ ks then 1 else 0 := by
    intro c hc
    rw [(hscan.map m.key).count_eq, count_maxScan_take hm hl' hd prev hc]
    exact if_congr ((hperm.map m.key).mem_iff.trans (hkeys c hc)) rfl rfl
  obtain ⟨x, hx, hkey, hval⟩ := getElem?_of_count val hr hks htop hcount hk
  refine ⟨x, hx, hkey, ?_⟩
  rw [hval, gather_perm hscan, gather_maxScan_take hm hl' hd prev hb, gather_perm hperm]

end Pass

end FOSketch.Keyed
