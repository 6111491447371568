import Mathlib.Data.List.Sort
import Nockmark.Kit.Ranking

/-!
# Kit.Stripes

Work dealt out in stripes. Of `k` indices, worker `t` of `step` takes `t`, `t + step`, and so on.

* `stripe_cons`: one more index at the front of a stripe.
* `perm_range`: the stripes of all workers, in whatever order they are put together, are the
  indices below `k`, each once.
* `sortByIndex_range`: sorting by index brings them into their own order.
-/

namespace Kit
namespace Stripes

variable {k step i : Nat} {l : List Nat}

/-- The indices from `i` on and below `k` that steps of `step` reach, each once. -/
structure Stripe (k step i : Nat) (l : List Nat) : Prop where
  nodup : l.Nodup
  mem_iff : ∀ j, j ∈ l ↔ i ≤ j ∧ j < k ∧ j % step = i % step

theorem stripe_nil (h : k ≤ i) : Stripe k step i [] where
  nodup := List.nodup_nil
  mem_iff j := by simp only [List.not_mem_nil, false_iff]; omega

/-- What a stripe has above its first index is at least a step away. -/
theorem eq_or_step_le {j : Nat} (hij : i ≤ j) (hmod : j % step = i % step) :
    j = i ∨ i + step ≤ j := by
  have hdvd : step ∣ j - i := Nat.dvd_of_mod_eq_zero (Nat.sub_mod_eq_zero_of_mod_eq hmod)
  rcases Nat.eq_zero_or_pos (j - i) with h | h
  · exact .inl (by omega)
  · have := Nat.le_of_dvd h hdvd
    exact .inr (by omega)

theorem stripe_cons (hstep : 0 < step) (hi : i < k) (h : Stripe k step (i + step) l) :
    Stripe k step i (i :: l) where
  nodup := by
    rw [List.nodup_cons, h.mem_iff]
    exact ⟨by omega, h.nodup⟩
  mem_iff j := by
    rw [List.mem_cons, h.mem_iff, Nat.add_mod_right]
    constructor
    · rintro (rfl | ⟨hle, hlt, hmod⟩)
      · exact ⟨le_rfl, hi, rfl⟩
      · exact ⟨by omega, hlt, hmod⟩
    · rintro ⟨hle, hlt, hmod⟩
      rcases eq_or_step_le hle hmod with h | h
      · exact .inl h
      · exact .inr ⟨h, hlt, hmod⟩

theorem perm_range {f : Nat → List Nat} {order : List Nat} (hstep : 0 < step)
    (horder : order.Perm (List.range step)) (h : ∀ t ∈ order, Stripe k step t (f t)) :
    (order.flatMap f).Perm (List.range k) := by
  have hmem : ∀ t, t ∈ order ↔ t < step := fun t => by rw [horder.mem_iff, List.mem_range]
  have hmod : ∀ t ∈ order, t % step = t := fun t ht => Nat.mod_eq_of_lt ((hmem t).mp ht)
  have hdisjoint : order.Pairwise (Function.onFun List.Disjoint f) := by
    have hnodup : order.Nodup := horder.nodup_iff.mpr List.nodup_range
    refine hnodup.imp_of_mem ?_
    intro t t' ht ht' hne j hj hj'
    -- an index belongs to the worker that it leaves as a remainder
    have h1 := ((h t ht).mem_iff j).mp hj
    have h2 := ((h t' ht').mem_iff j).mp hj'
    rw [hmod t ht] at h1
    rw [hmod t' ht'] at h2
    exact hne (h1.2.2.symm.trans h2.2.2)
  apply (List.perm_ext_iff_of_nodup _ List.nodup_range).mpr
  · intro j
    rw [List.mem_flatMap, List.mem_range]
    constructor
    · rintro ⟨t, ht, hj⟩
      exact (((h t ht).mem_iff j).mp hj).2.1
    · intro hj
      have ht : j % step ∈ order := (hmem _).mpr (Nat.mod_lt _ hstep)
      exact ⟨_, ht, ((h _ ht).mem_iff j).mpr ⟨Nat.mod_le _ _, hj, (Nat.mod_mod _ _).symm⟩⟩
  · exact List.nodup_flatMap.mpr ⟨fun t ht => (h t ht).nodup, hdisjoint⟩

/-- A stable sort, lowest index first. -/
def sortByIndex {α : Type} (index : α → Nat) (l : List α) : List α :=
  Ranking.rank (fun a => OrderDual.toDual (index a)) l

theorem sortByIndex_perm {α : Type} (index : α → Nat) (l : List α) :
    (sortByIndex index l).Perm l := Ranking.rank_perm _ _

theorem sortByIndex_range {α : Type} {index : α → Nat} {l : List α}
    (h : (l.map index).Perm (List.range k)) : (sortByIndex index l).map index = List.range k := by
  have hperm := ((sortByIndex_perm index l).map index).trans h
  have hsorted : ((sortByIndex index l).map index).Pairwise (· ≤ ·) :=
    List.pairwise_map.mpr (Ranking.rank_pairwise (fun a => OrderDual.toDual (index a)) l)
  exact hperm.eq_of_pairwise' hsorted List.pairwise_le_range

/-- Entries of different indices have one order. -/
theorem sortByIndex_eq {α : Type} {index : α → Nat} {l l' : List α} (hl : l.Perm l')
    (h : (l'.map index).Pairwise (· < ·)) : sortByIndex index l = l' := by
  have hperm := (sortByIndex_perm index l).trans hl
  have hsorted := Ranking.rank_pairwise (fun a => OrderDual.toDual (index a)) l
  have hsorted' := (List.pairwise_map.mp h).imp Nat.le_of_lt
  have hinj := List.inj_on_of_nodup_map (h.imp Nat.ne_of_lt)
  apply hperm.eq_of_pairwise ?_ hsorted hsorted'
  intro a b ha hb hab hba
  exact hinj (hperm.mem_iff.mp ha) hb (Nat.le_antisymm hab hba)

end Stripes
end Kit
