import Mathlib

/-!
# Labels that are drawn anew whenever they are shown

Every item of `B` has a label. Again and again an item is chosen, its label is shown, and the item draws a new one. The
choice may depend on the labels shown so far. From the labels shown and those that are left the draws can be found again
(`revealEquiv`), so if the first labels and the draws are uniform, then so are the labels shown, whatever is chosen
(`map_reveal`).
-/

namespace FOSketch.Relabel

variable {B Λ : Type*} [DecidableEq B]

/-- The labels shown, and those at the end; `seen` are the labels shown before. -/
def reveal (next : List Λ → B) : (B → Λ) → List Λ → List Λ → List Λ × (B → Λ)
  | p, _, [] => ([], p)
  | p, seen, d :: ds =>
    let b := next seen
    let r := reveal next (Function.update p b d) (seen ++ [p b]) ds
    (p b :: r.1, r.2)

/-- The labels before, and the draws, from the labels shown and those at the end. -/
def conceal (next : List Λ → B) (q : B → Λ) : List Λ → List Λ → (B → Λ) × List Λ
  | _, [] => (q, [])
  | seen, l :: ls =>
    let b := next seen
    let r := conceal next q (seen ++ [l]) ls
    (Function.update r.1 b l, r.1 b :: r.2)

variable (next : List Λ → B)

theorem length_reveal (p : B → Λ) (seen ds : List Λ) : (reveal next p seen ds).1.length = ds.length := by
  induction ds generalizing p seen with
  | nil => rfl
  | cons d ds ih => rw [reveal, List.length_cons, ih, List.length_cons]

theorem length_conceal (q : B → Λ) (seen ls : List Λ) : (conceal next q seen ls).2.length = ls.length := by
  induction ls generalizing seen with
  | nil => rfl
  | cons l ls ih => rw [conceal, List.length_cons, ih, List.length_cons]

theorem conceal_reveal (p : B → Λ) (seen ds : List Λ) :
    conceal next (reveal next p seen ds).2 seen (reveal next p seen ds).1 = (p, ds) := by
  induction ds generalizing p seen with
  | nil => rfl
  | cons d ds ih =>
    rw [reveal]
    dsimp only
    rw [conceal, ih]
    simp

theorem reveal_conceal (q : B → Λ) (seen ls : List Λ) :
    reveal next (conceal next q seen ls).1 seen (conceal next q seen ls).2 = (ls, q) := by
  induction ls generalizing seen with
  | nil => rfl
  | cons l ls ih =>
    rw [conceal]
    dsimp only
    rw [reveal]
    simp [ih]

/-- The labels before and the draws are as good as the labels shown and those at the end. -/
def revealEquiv (n : Nat) : (B → Λ) × List.Vector Λ n ≃ List.Vector Λ n × (B → Λ) where
  toFun t := (⟨(reveal next t.1 [] t.2.toList).1, by rw [length_reveal, t.2.toList_length]⟩,
    (reveal next t.1 [] t.2.toList).2)
  invFun t := ((conceal next t.2 [] t.1.toList).1,
    ⟨(conceal next t.2 [] t.1.toList).2, by rw [length_conceal, t.1.toList_length]⟩)
  left_inv := by
    rintro ⟨p, ds⟩
    obtain ⟨hp, hds⟩ := Prod.ext_iff.mp (conceal_reveal next p [] ds.toList)
    exact Prod.ext hp (Subtype.ext hds)
  right_inv := by
    rintro ⟨ls, q⟩
    obtain ⟨hls, hq⟩ := Prod.ext_iff.mp (reveal_conceal next q [] ls.toList)
    exact Prod.ext (Subtype.ext hls) hq

/-! ## Uniform draws -/

/-- One part of a uniform pair is uniform. -/
theorem map_uniform_fst {α β γ : Type*} [Fintype α] [Nonempty α] [Fintype β] [Nonempty β] [Fintype γ] [Nonempty γ]
    (e : α ≃ β × γ) : (PMF.uniformOfFintype α).map (fun a => (e a).1) = PMF.uniformOfFintype β := by
  classical
  ext b
  have hfiber : (Finset.univ.filter fun a => b = (e a).1).card = Fintype.card γ := by
    rw [← Fintype.card_subtype]
    refine Fintype.card_congr ⟨fun a => (e a.1).2, fun c => ⟨e.symm (b, c), by simp⟩, ?_, ?_⟩
    · rintro ⟨a, rfl⟩
      simp
    · intro c
      simp
  have hγ : (Fintype.card γ : ENNReal) ≠ 0 := by
    exact_mod_cast Fintype.card_ne_zero
  rw [PMF.map_apply, tsum_fintype, PMF.uniformOfFintype_apply]
  simp only [PMF.uniformOfFintype_apply]
  rw [← Finset.sum_filter, Finset.sum_const, hfiber, nsmul_eq_mul, Fintype.card_congr e, Fintype.card_prod, Nat.cast_mul,
    ENNReal.mul_inv (Or.inr (ENNReal.natCast_ne_top _)) (Or.inl (ENNReal.natCast_ne_top _)), mul_comm, mul_assoc,
    ENNReal.inv_mul_cancel hγ (ENNReal.natCast_ne_top _), mul_one]

def splitVector {R H : Type*} (e : R ≃ Λ × H) (n : Nat) : List.Vector R n ≃ List.Vector Λ n × List.Vector H n :=
  ((Equiv.vectorEquivFin R n).trans ((Equiv.arrowCongr (Equiv.refl _) e).trans (Equiv.arrowProdEquivProdArrow _ _ _))).trans
    ((Equiv.vectorEquivFin Λ n).symm.prodCongr (Equiv.vectorEquivFin H n).symm)

theorem splitVector_fst {R H : Type*} (e : R ≃ Λ × H) {n : Nat} (v : List.Vector R n) :
    (splitVector e n v).1 = v.map fun r => (e r).1 := by
  refine List.Vector.ext fun i => ?_
  simp [splitVector, Equiv.vectorEquivFin]

instance nonemptyVector {α : Type*} [Nonempty α] (n : Nat) : Nonempty (List.Vector α n) :=
  ⟨List.Vector.replicate n (Classical.arbitrary α)⟩

/-- The draws as the labels shown and the rest. -/
def drawsEquiv {R H : Type*} (e : R ≃ Λ × H) (n : Nat) :
    (B → R) × List.Vector R n ≃ List.Vector Λ n × ((B → Λ) × ((B → H) × List.Vector H n)) :=
  (((Equiv.arrowCongr (Equiv.refl B) e).trans (Equiv.arrowProdEquivProdArrow B _ _)).prodCongr (splitVector e n)).trans <|
    (Equiv.prodProdProdComm _ _ _ _).trans <| ((revealEquiv next n).prodCongr (Equiv.refl _)).trans (Equiv.prodAssoc _ _ _)

theorem drawsEquiv_fst {R H : Type*} (e : R ≃ Λ × H) {n : Nat} (t : (B → R) × List.Vector R n) :
    (drawsEquiv next e n t).1.toList =
      (reveal next (fun b => (e (t.1 b)).1) [] (t.2.toList.map fun r => (e r).1)).1 := by
  rw [← List.Vector.toList_map, ← splitVector_fst]
  rfl

/-- **The labels shown are uniform**, whatever is chosen. -/
theorem map_reveal {R H : Type*} [Fintype B] [Fintype R] [Nonempty R] [Fintype Λ] [Nonempty Λ] [Fintype H] [Nonempty H]
    (e : R ≃ Λ × H) (n : Nat) :
    (PMF.uniformOfFintype ((B → R) × List.Vector R n)).map (fun t =>
        (reveal next (fun b => (e (t.1 b)).1) [] (t.2.toList.map fun r => (e r).1)).1) =
      (PMF.uniformOfFintype (List.Vector Λ n)).map List.Vector.toList := by
  rw [← map_uniform_fst (drawsEquiv next e n), PMF.map_comp]
  congr 1
  funext t
  exact (drawsEquiv_fst next e t).symm

end FOSketch.Relabel
