import FOSketch.Heavy.STable

/-!
# `OBuildSTable` keeps every item

The filled places and the stash together hold the items of the loop, each in the bucket of its flow or in the stash, and an
item goes to the stash only when its bucket has no place left. Where the routine gives up, it has come to an item whose
bucket and the stash are both full (`OBuildSTable_keeps`).
-/

namespace FOSketch.Heavy

open Memory

/-! ## The fill counts -/

def fillCounts : (Nat → Nat) → List (Nat × Item) → Nat → Nat
  | idcList, [] => idcList
  | idcList, p :: ps =>
    if ST_BUCKET_SIZE ≤ idcList p.1 then fillCounts idcList ps
    else fillCounts (Function.update idcList p.1 (idcList p.1 + 1)) ps

theorem fillCounts_eq {ps : List (Nat × Item)} {idcList : Nat → Nat} (hidc : ∀ b, idcList b ≤ ST_BUCKET_SIZE) (b : Nat) :
    fillCounts idcList ps b = min ST_BUCKET_SIZE (idcList b + (group ps b).length) := by
  induction ps generalizing idcList with
  | nil =>
    rw [fillCounts, group_nil, List.length_nil, Nat.add_zero, min_eq_right (hidc b)]
  | cons p ps ih =>
    rw [fillCounts, group_cons]
    by_cases hfull : ST_BUCKET_SIZE ≤ idcList p.1
    · rw [if_pos hfull, ih hidc]
      by_cases hb : p.1 = b
      · subst hb
        rw [if_pos rfl, min_eq_left (by omega), min_eq_left (by omega)]
      · rw [if_neg hb]
    · have hupd : ∀ c, Function.update idcList p.1 (idcList p.1 + 1) c ≤ ST_BUCKET_SIZE := by
        intro c
        by_cases hc : c = p.1
        · subst hc
          rw [Function.update_self]
          omega
        · rw [Function.update_of_ne hc]
          exact hidc c
      rw [if_neg hfull, ih hupd]
      by_cases hb : p.1 = b
      · subst hb
        rw [if_pos rfl, Function.update_self, List.length_cons]
        congr 1
        omega
      · rw [if_neg hb, Function.update_of_ne (Ne.symm hb)]

/-! ## The items -/

theorem fitted_spill_perm {n : Nat} {ps : List (Nat × Item)} (hps : ∀ p ∈ ps, p.1 < n) (idcList : Nat → Nat) :
    (((List.range n).flatMap fun b => (group ps b).take (ST_BUCKET_SIZE - idcList b)) ++ spill idcList ps).Perm
      (ps.map Prod.snd) := by
  induction ps generalizing idcList with
  | nil =>
    simp only [group_nil, List.take_nil, spill, List.append_nil, List.map_nil]
    rw [List.flatMap_eq_nil_iff.mpr fun _ _ => rfl]
  | cons p ps ih =>
    have hp := hps p List.mem_cons_self
    have hrest := fun q hq => hps q (List.mem_cons_of_mem p hq)
    have hother : ∀ b ≠ p.1, group (p :: ps) b = group ps b := fun b hb => by rw [group_cons, if_neg (Ne.symm hb)]
    have hself : group (p :: ps) p.1 = p.2 :: group ps p.1 := by rw [group_cons, if_pos rfl]
    rw [spill]
    by_cases hfull : ST_BUCKET_SIZE ≤ idcList p.1
    · -- the item goes to the stash
      have hsame : ∀ b, (group (p :: ps) b).take (ST_BUCKET_SIZE - idcList b) =
          (group ps b).take (ST_BUCKET_SIZE - idcList b) := by
        intro b
        by_cases hb : b = p.1
        · subst hb
          rw [Nat.sub_eq_zero_of_le hfull, List.take_zero, List.take_zero]
        · rw [hother b hb]
      simp only [if_pos hfull, hsame]
      exact List.perm_middle.trans ((ih hrest idcList).cons p.2)
    · -- the item goes to its bucket
      rw [if_neg hfull]
      refine List.Perm.trans ?_ ((ih hrest (Function.update idcList p.1 (idcList p.1 + 1))).cons p.2)
      rw [← List.cons_append]
      apply List.Perm.append_right
      apply flatMap_cons_perm hp
      · rw [hself, Function.update_self,
          show ST_BUCKET_SIZE - idcList p.1 = ST_BUCKET_SIZE - (idcList p.1 + 1) + 1 by omega, List.take_succ_cons]
      · intro b hb
        rw [hother b hb, Function.update_of_ne hb]

theorem fillST_filled {ps : List (Nat × Item)} {t t' : STable} (h : fillST (fun _ => 0) t ps = (t', true)) (b : Nat) :
    load t'.pDataStashTable (ST_BUCKET_SIZE * b) (fillCounts (fun _ => 0) ps b) = (group ps b).take ST_BUCKET_SIZE := by
  have hrow := fillST_row h b
  rw [List.take_zero, List.nil_append, Nat.sub_zero, Nat.zero_add] at hrow
  have hfill : fillCounts (fun _ => 0) ps b = min ST_BUCKET_SIZE (0 + (group ps b).length) :=
    fillCounts_eq (fun _ => Nat.zero_le _) b
  rw [Nat.zero_add] at hfill
  have hlen : ((group ps b).take ST_BUCKET_SIZE).length = fillCounts (fun _ => 0) ps b := by
    rw [hfill, List.length_take]
  have hsplit := load_add t'.pDataStashTable (ST_BUCKET_SIZE * b) (fillCounts (fun _ => 0) ps b)
    (ST_BUCKET_SIZE - fillCounts (fun _ => 0) ps b)
  rw [Nat.add_sub_cancel' (hfill.le.trans (min_le_left _ _))] at hsplit
  have htake := congrArg (List.take (fillCounts (fun _ => 0) ps b)) (hsplit.symm.trans hrow)
  rwa [List.take_left' (length_load _ _ _), List.take_left' hlen] at htake

section Stash
variable {ps : List (Nat × Item)} {table stash : Nat → Item} {t : STable}
  (h : fillST (fun _ => 0) ⟨table, stash, 0⟩ ps = (t, true))

include h

theorem load_pStashHeavy : load t.pStashHeavy 0 t.countStash = spill (fun _ => 0) ps := fillST_stash h

theorem countStash_le : t.countStash ≤ ST_STASH_NUM := by
  have hstart : (⟨table, stash, 0⟩ : STable).countStash ≤ ST_STASH_NUM := Nat.zero_le _
  have hroom := (fillST_snd hstart).mp (congrArg Prod.snd h)
  have hlen := congrArg List.length (load_pStashHeavy h)
  rw [length_load] at hlen
  rw [hlen]
  exact (Nat.zero_add _).symm.trans_le hroom

end Stash

/-- Where the loop gives up. -/
theorem fillST_stops {ps : List (Nat × Item)} {idcList : Nat → Nat} {t t' : STable}
    (h : fillST idcList t ps = (t', false)) :
    ∃ done p rest, ps = done ++ p :: rest ∧ fillST idcList t done = (t', true) ∧
      ST_BUCKET_SIZE ≤ fillCounts idcList done p.1 ∧ ST_STASH_NUM ≤ t'.countStash := by
  induction ps generalizing idcList t with
  | nil => exact absurd (Prod.mk.inj h).2 (by decide)
  | cons p ps ih =>
    rw [fillST] at h
    by_cases hfull : ST_BUCKET_SIZE ≤ idcList p.1
    · rw [if_pos hfull] at h
      by_cases hstash : ST_STASH_NUM ≤ t.countStash
      · rw [if_pos hstash] at h
        obtain ⟨rfl, -⟩ := Prod.mk.inj h
        exact ⟨[], p, ps, rfl, rfl, hfull, hstash⟩
      · rw [if_neg hstash] at h
        obtain ⟨done, q, rest, rfl, h1, h2, h3⟩ := ih h
        refine ⟨p :: done, q, rest, rfl, ?_, ?_, h3⟩
        · rw [fillST, if_pos hfull, if_neg hstash, h1]
        · rwa [fillCounts, if_pos hfull]
    · rw [if_neg hfull] at h
      obtain ⟨done, q, rest, rfl, h1, h2, h3⟩ := ih h
      refine ⟨p :: done, q, rest, rfl, ?_, ?_, h3⟩
      · rw [fillST, if_neg hfull, h1]
      · rwa [fillCounts, if_neg hfull]

/-! ## The routine -/

/-- **`OBuildSTable`**: the filled places and the stash hold the items of the list, each where it belongs, or the item was
found that fits neither. -/
theorem OBuildSTable_keeps (hash : U32 → U32) (rand : Nat → Int) (table stash HeavyHitterList : Nat → Item) :
    let r := OBuildSTable hash rand table stash HeavyHitterList
    let items := stItems hash rand HeavyHitterList
    let fill := fillCounts (fun _ => 0) items
    (r.2.2 = true →
      (((List.range ST_BUCKET_NUM).flatMap fun b => load r.2.1.pDataStashTable (ST_BUCKET_SIZE * b) (fill b)) ++
          load r.2.1.pStashHeavy 0 r.2.1.countStash).Perm (load r.1 0 NUM_HEAVY) ∧
        (∀ b, ∀ x ∈ load r.2.1.pDataStashTable (ST_BUCKET_SIZE * b) (fill b), (hash x.flowID).val % ST_BUCKET_NUM = b) ∧
        (∀ x ∈ load r.2.1.pStashHeavy 0 r.2.1.countStash, fill ((hash x.flowID).val % ST_BUCKET_NUM) = ST_BUCKET_SIZE) ∧
        r.2.1.countStash ≤ ST_STASH_NUM) ∧
      (r.2.2 = false → ∃ done p rest, items = done ++ p :: rest ∧
        fillST (fun _ => 0) ⟨table, stash, 0⟩ done = (r.2.1, true) ∧ p.1 = (hash p.2.flowID).val % ST_BUCKET_NUM ∧
        fillCounts (fun _ => 0) done p.1 = ST_BUCKET_SIZE ∧ r.2.1.countStash = ST_STASH_NUM) := by
  intro r items fill
  have hzero : ∀ b : Nat, (fun _ : Nat => 0) b ≤ ST_BUCKET_SIZE := fun _ => Nat.zero_le _
  have hr : r = (renumber HeavyHitterList, fillST (fun _ => 0) ⟨table, stash, 0⟩ items) := OBuildSTable_eq _ _ _ _ _
  rw [hr]
  obtain ⟨t, ok, h⟩ : ∃ t ok, fillST (fun _ => 0) ⟨table, stash, 0⟩ items = (t, ok) := ⟨_, _, Prod.mk.eta.symm⟩
  rw [h]
  constructor
  · intro htrue
    obtain rfl : ok = true := htrue
    have hstash := load_pStashHeavy h
    refine ⟨?_, ?_, ?_, countStash_le h⟩
    · have hlist : load (renumber HeavyHitterList) 0 NUM_HEAVY = curList (renumber HeavyHitterList) NUM_HEAVY := by
        unfold load curList
        simp only [Nat.zero_add]
      simp only [fill, fillST_filled h, hstash, hlist]
      exact (fitted_spill_perm (fun p hp => stItems_lt hp) fun _ => 0).trans (stItems_perm hash rand HeavyHitterList)
    · intro b x hx
      rw [fillST_filled h] at hx
      obtain ⟨p, hp, rfl⟩ := List.mem_map.mp (List.mem_of_mem_take hx)
      obtain ⟨hmem, hb⟩ := List.mem_filter.mp hp
      rw [← stItems_bucket hmem, beq_iff_eq.mp hb]
    · intro x hx
      rw [hstash] at hx
      obtain ⟨b, hmem, hlt⟩ := mem_spill hx
      have hb := stItems_bucket hmem
      dsimp only at hb
      rw [← hb]
      exact (fillCounts_eq hzero b).trans (min_eq_left hlt.le)
  · intro hfalse
    obtain rfl : ok = false := hfalse
    obtain ⟨done, p, rest, hsplit, hdone, hfull, hlimit⟩ := fillST_stops h
    refine ⟨done, p, rest, hsplit, hdone, ?_, ?_, ?_⟩
    · exact stItems_bucket (hsplit ▸ List.mem_append_right _ List.mem_cons_self)
    · exact le_antisymm ((fillCounts_eq hzero p.1).le.trans (min_le_left _ _)) hfull
    · exact le_antisymm (countStash_le hdone) hlimit

end FOSketch.Heavy
