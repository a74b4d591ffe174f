import FOSketch.Keyed.Scan

/-!
# Where a record's value comes from

The scan on records that carry no value but the set of the records they were joined from. Every scan of valued records
is an image of a scan of traced ones (`maxScan_map`), so a value at the end is a join over a set that depends on the keys
alone. Two facts about these sets: in key order each record below the largest key keeps a source of its own
(`pairwise_apart_maxScan`); and where the key falls, the two sources that meet stay together (`together_maxScan`).
-/

namespace FOSketch.Keyed

variable {α κ : Type*}

/-! ## Properties of all records -/

section Forall
variable [LinearOrder κ] {m : Merging α κ}

theorem maxScan_forall {P : α → Prop} (hj : ∀ x y, P x → P y → P (m.join x y)) (hr : ∀ x, P x → P (m.retire x))
    {l : List α} {prev : α} {cond : Bool} (hl : ∀ x ∈ l, P x) (hp : cond = false → P prev) :
    ∀ z ∈ maxScan m l prev cond, P z := by
  have htake : ∀ x ∈ l, ∀ {prev cond}, (cond = false → P prev) → P (m.take x prev cond) := by
    intro x hx prev cond hp
    cases cond
    · exact hj x prev (hl x hx) (hp rfl)
    · exact hl x hx
  induction l generalizing prev cond with
  | nil => exact fun z hz => absurd hz List.not_mem_nil
  | cons x l ih =>
    have hx := htake x List.mem_cons_self hp
    cases l with
    | nil =>
      intro z hz
      rw [List.mem_singleton.mp hz]; exact hx
    | cons y l =>
      intro z hz
      rcases List.mem_cons.mp hz with rfl | hz
      · split_ifs
        · exact hx
        · exact hr _ hx
      · exact ih (fun z hz => hl z (List.mem_cons_of_mem x hz)) (fun _ => hx)
          (fun z hz => htake z (List.mem_cons_of_mem x hz)) z hz

/-- In key order, a record after the scan is one of before up to what it joined, under its key or retired. -/
theorem mem_maxScan {τ : Type*} (tag : α → τ) (top : κ) (hk : ∀ x y, m.key x = m.key y → m.key (m.join x y) = m.key x)
    (htj : ∀ x y, tag (m.join x y) = tag x) (htr : ∀ x, tag (m.retire x) = tag x)
    (htop : ∀ x, m.key (m.retire x) = top) {l : List α} {prev : α} {cond : Bool}
    (hl : l.Pairwise fun x y => m.key x ≤ m.key y) (hp : ∀ x ∈ l.head?, cond = false → m.key prev = m.key x) :
    ∀ z ∈ maxScan m l prev cond, ∃ x ∈ l, tag z = tag x ∧ (m.key z = m.key x ∨ m.key z = top) := by
  induction l generalizing prev cond with
  | nil => exact fun z hz => absurd hz List.not_mem_nil
  | cons x l ih =>
    have htag : tag (m.take x prev cond) = tag x := by
      cases cond
      · exact htj x prev
      · rfl
    have hkey : m.key (m.take x prev cond) = m.key x := by
      cases cond
      · exact hk x prev (hp x rfl rfl).symm
      · rfl
    cases l with
    | nil =>
      intro z hz
      rw [List.mem_singleton.mp hz]
      exact ⟨x, List.mem_cons_self, htag, .inl hkey⟩
    | cons y l =>
      have hxy := (List.pairwise_cons.mp hl).1 y List.mem_cons_self
      intro z hz
      rcases List.mem_cons.mp hz with rfl | hz
      · refine ⟨x, List.mem_cons_self, ?_⟩
        split_ifs
        · exact ⟨htag, .inl hkey⟩
        · exact ⟨(htr _).trans htag, .inr (htop _)⟩
      · obtain ⟨w, hw, h⟩ := ih (List.pairwise_cons.mp hl).2 (fun w hw hc => by
          obtain rfl : y = w := Option.some.inj hw
          rw [decide_eq_false_iff_not, hkey] at hc
          rw [hkey]; exact le_antisymm hxy (not_lt.mp hc)) z hz
        exact ⟨w, List.mem_cons_of_mem x hw, h⟩

end Forall

/-! ## Traced records -/

/-- A record that knows the source it is from, `own`, and all it was joined from, `src`. -/
structure Traced (κ : Type*) where
  key : κ
  own : Nat
  src : Finset Nat

def Traced.single (key : κ) (own : Nat) : Traced κ := ⟨key, own, {own}⟩

/-- The scan of traced records, where `keyJoin` joins the keys. -/
def tracing [Top κ] (keyJoin : κ → κ → κ) : Merging (Traced κ) κ where
  key := Traced.key
  join x y := ⟨keyJoin x.key y.key, x.own, x.src ∪ y.src⟩
  retire x := ⟨⊤, x.own, x.src⟩

section Traced
variable [LinearOrder κ] [OrderTop κ] {keyJoin : κ → κ → κ}

/-- Neither record holds the other's source, unless that other is retired. -/
def Apart (x y : Traced κ) : Prop := (x.key ≠ ⊤ → x.own ∉ y.src) ∧ (y.key ≠ ⊤ → y.own ∉ x.src)

theorem Apart.symm {x y : Traced κ} (h : Apart x y) : Apart y x := ⟨h.2, h.1⟩

theorem apart_single {k k' : κ} {i j : Nat} (h : i ≠ j) : Apart (Traced.single k i) (Traced.single k' j) :=
  ⟨fun _ hm => h (Finset.mem_singleton.mp hm), fun _ hm => h (Finset.mem_singleton.mp hm).symm⟩

/-- A source that no record holds, nor the carry, is held by none after the scan. -/
theorem notMem_src_maxScan {s : Nat} {l : List (Traced κ)} {prev : Traced κ} {cond : Bool} (hl : ∀ x ∈ l, s ∉ x.src)
    (hp : cond = false → s ∉ prev.src) : ∀ z ∈ maxScan (tracing keyJoin) l prev cond, s ∉ z.src :=
  maxScan_forall (P := fun z : Traced κ => s ∉ z.src)
    (fun _ _ hx hy h => (Finset.mem_union.mp h).elim hx hy) (fun _ hx => hx) hl hp

theorem notMem_take {a : Nat} {x prev : Traced κ} {cond : Bool} (hx : a ∉ x.src) (hp : cond = false → a ∉ prev.src) :
    a ∉ ((tracing keyJoin).take x prev cond).src := by
  cases cond
  · exact fun h => (Finset.mem_union.mp h).elim hx (hp rfl)
  · exact hx

theorem mem_take {a : Nat} {x : Traced κ} (hx : a ∈ x.src) (prev : Traced κ) (cond : Bool) :
    a ∈ ((tracing keyJoin).take x prev cond).src := by
  cases cond
  · exact Finset.mem_union_left _ hx
  · exact hx

theorem together_join {a d : Nat} (x y : Traced κ) (hx : a ∈ x.src → d ∈ x.src) (hy : a ∈ y.src → d ∈ y.src)
    (h : a ∈ ((tracing keyJoin).join x y).src) : d ∈ ((tracing keyJoin).join x y).src := by
  rcases Finset.mem_union.mp h with h | h
  · exact Finset.mem_union_left _ (hx h)
  · exact Finset.mem_union_right _ (hy h)

variable (hle : ∀ a b, a ≤ keyJoin a b)
include hle

theorem key_le_take (x prev : Traced κ) (cond : Bool) : x.key ≤ ((tracing keyJoin).take x prev cond).key := by
  cases cond
  · exact hle _ _
  · exact le_refl _

/-- A record that is not retired after the scan was not retired before. -/
theorem own_maxScan {l : List (Traced κ)} {prev : Traced κ} {cond : Bool} :
    ∀ z ∈ maxScan (tracing keyJoin) l prev cond, z.key ≠ ⊤ → ∃ x ∈ l, x.own = z.own ∧ x.key ≠ ⊤ := by
  induction l generalizing prev cond with
  | nil => exact fun z hz => absurd hz List.not_mem_nil
  | cons x l ih =>
    have hown : ((tracing keyJoin).take x prev cond).own = x.own := by cases cond <;> rfl
    have hkey : ((tracing keyJoin).take x prev cond).key ≠ ⊤ → x.key ≠ ⊤ := fun h hx =>
      h (top_le_iff.mp (hx ▸ key_le_take hle x prev cond))
    cases l with
    | nil =>
      intro z hz hne
      rw [List.mem_singleton.mp hz] at hne ⊢
      exact ⟨x, List.mem_cons_self, hown.symm, hkey hne⟩
    | cons y l =>
      intro z hz hne
      rcases List.mem_cons.mp hz with rfl | hz
      · split_ifs at hne ⊢
        · exact ⟨x, List.mem_cons_self, hown.symm, hkey hne⟩
        · exact absurd rfl hne
      · obtain ⟨w, hw, h⟩ := ih z hz hne
        exact ⟨w, List.mem_cons_of_mem x hw, h⟩

/-- **The scan keeps records apart.** -/
theorem pairwise_apart_maxScan {l : List (Traced κ)} (hl : l.Pairwise Apart) {prev : Traced κ} {cond : Bool}
    (hp : cond = false → ∀ x ∈ l, x.key ≠ ⊤ → x.own ∉ prev.src) :
    (maxScan (tracing keyJoin) l prev cond).Pairwise Apart := by
  induction l generalizing prev cond with
  | nil => exact List.Pairwise.nil
  | cons x l ih =>
    cases l with
    | nil => exact List.pairwise_singleton _ _
    | cons y l =>
      obtain ⟨hx, hl⟩ := List.pairwise_cons.mp hl
      have hcarry : ∀ w ∈ y :: l, w.key ≠ ⊤ → w.own ∉ ((tracing keyJoin).take x prev cond).src := by
        intro w hw hne
        exact notMem_take ((hx w hw).2 hne) fun hc => hp hc w (List.mem_cons_of_mem x hw) hne
      refine List.pairwise_cons.mpr ⟨fun z hz => ⟨fun hne => ?_, fun hne => ?_⟩, ih hl fun _ => hcarry⟩
      · split_ifs at hne ⊢ with hc
        · have hown : ((tracing keyJoin).take x prev cond).own = x.own := by cases cond <;> rfl
          have hxne : x.key ≠ ⊤ := fun h => hne (top_le_iff.mp (h ▸ key_le_take hle x prev cond))
          rw [hown]
          exact notMem_src_maxScan (fun w hw => (hx w hw).1 hxne) (fun h => absurd (hc.symm.trans h) (by decide)) z hz
        · exact absurd rfl hne
      · obtain ⟨w, hw, ho, hwne⟩ := own_maxScan hle z hz hne
        rw [← ho]
        split_ifs
        · exact hcarry w hw hwne
        · exact hcarry w hw hwne

/-- The scan from the higher record `c` on, with the lower record `e` behind it. -/
theorem together_maxScan_head {r : List (Traced κ)} {c e : Traced κ} (hlt : e.key < c.key) (hc : c.own ∈ c.src)
    (hfree : ∀ x ∈ r, e.own ∉ x.src) (prev : Traced κ) (cond : Bool) :
    ∀ z ∈ maxScan (tracing keyJoin) (c :: e :: r) prev cond, e.own ∈ z.src → c.own ∈ z.src := by
  intro z hz
  have hmem : c.own ∈ ((tracing keyJoin).take c prev cond).src := mem_take hc prev cond
  have hfall : decide (((tracing keyJoin).take c prev cond).key < e.key) = false :=
    decide_eq_false (not_lt.mpr (hlt.le.trans (key_le_take hle c prev cond)))
  rcases List.mem_cons.mp hz with rfl | hz
  · split_ifs
    · exact fun _ => hmem
    · exact fun _ => hmem
  change z ∈ maxScan (tracing keyJoin) (e :: r) _ (decide (((tracing keyJoin).take c prev cond).key < e.key)) at hz
  rw [hfall] at hz
  -- `e` has joined `c`; from here on the carry holds both
  have hboth : c.own ∈ ((tracing keyJoin).take e ((tracing keyJoin).take c prev cond) false).src :=
    Finset.mem_union_right _ hmem
  cases r with
  | nil =>
    rw [List.mem_singleton.mp hz]
    exact fun _ => hboth
  | cons y r =>
    rcases List.mem_cons.mp hz with rfl | hz
    · split_ifs
      · exact fun _ => hboth
      · exact fun _ => hboth
    · exact maxScan_forall (P := fun z : Traced κ => e.own ∈ z.src → c.own ∈ z.src) together_join (fun _ hx => hx)
        (fun x hx h => absurd h (hfree x hx)) (fun _ _ => hboth) z hz

/-- **Where the key falls**, what is joined into the lower record `e` takes the source of the higher record `c` along:
after the scan no record holds the source of `e` without that of `c`. -/
theorem together_maxScan {l r : List (Traced κ)} {c e : Traced κ} (hlt : e.key < c.key) (hc : c.own ∈ c.src)
    (hfree : ∀ x ∈ l ++ c :: r, e.own ∉ x.src) (prev : Traced κ) (cond : Bool) (hp : cond = false → e.own ∉ prev.src) :
    ∀ z ∈ maxScan (tracing keyJoin) (l ++ c :: e :: r) prev cond, e.own ∈ z.src → c.own ∈ z.src := by
  induction l generalizing prev cond with
  | nil => exact together_maxScan_head hle hlt hc (fun x hx => hfree x (List.mem_cons_of_mem c hx)) prev cond
  | cons x l ih =>
    intro z hz
    have hx : e.own ∉ ((tracing keyJoin).take x prev cond).src := notMem_take (hfree x (by simp)) hp
    have htail := fun b => ih (fun w hw => hfree w (List.mem_cons_of_mem x hw)) _ b fun _ => hx
    cases l with
    | nil =>
      rcases List.mem_cons.mp hz with rfl | hz
      · split_ifs
        · exact fun h => absurd h hx
        · exact fun h => absurd h hx
      · exact htail _ z hz
    | cons y l =>
      rcases List.mem_cons.mp hz with rfl | hz
      · split_ifs
        · exact fun h => absurd h hx
        · exact fun h => absurd h hx
      · exact htail _ z hz

end Traced

end FOSketch.Keyed
