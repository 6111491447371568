import Mathlib

/-!
# Kit.Ranking

Listing by a key, greatest first, with a stable sort.

* `rank_lt`: the greater key stands before the smaller.
* `rank_stable`: equal keys keep the order of the input.
* `rank_rate`: what a key that follows a rate monotonically (a rounded rate) says of the listing:
  the greater rate never has the smaller key, so it stands first unless the keys are equal.
-/

namespace Kit
namespace Ranking

variable {α κ : Type} [LinearOrder κ]

/-- `a` may stand before `b`. -/
def notBehind (key : α → κ) (a b : α) : Bool := decide (key b ≤ key a)

theorem notBehind_trans (key : α → κ) (a b c : α) (hab : notBehind key a b = true)
    (hbc : notBehind key b c = true) : notBehind key a c = true :=
  decide_eq_true (le_trans (of_decide_eq_true hbc) (of_decide_eq_true hab))

theorem notBehind_total (key : α → κ) (a b : α) :
    (notBehind key a b || notBehind key b a) = true := by
  simp only [notBehind, Bool.or_eq_true, decide_eq_true_eq]
  exact le_total _ _

def rank (key : α → κ) (l : List α) : List α := l.mergeSort (notBehind key)

theorem rank_perm (key : α → κ) (l : List α) : (rank key l).Perm l := List.mergeSort_perm _ _

theorem rank_pairwise (key : α → κ) (l : List α) :
    (rank key l).Pairwise fun a b => key b ≤ key a := by
  have h := List.pairwise_mergeSort (notBehind_trans key) (notBehind_total key) l
  exact h.imp of_decide_eq_true

/-- Two different elements of a list stand in one order or the other. -/
theorem pair_sublist_or {l : List α} {a b : α} (ha : a ∈ l) (hb : b ∈ l) (hne : a ≠ b) :
    [a, b].Sublist l ∨ [b, a].Sublist l := by
  induction l with
  | nil => cases ha
  | cons x l ih =>
    rcases List.mem_cons.mp ha with rfl | ha'
    · rcases List.mem_cons.mp hb with rfl | hb'
      · exact absurd rfl hne
      · exact .inl (.cons_cons a (List.singleton_sublist.mpr hb'))
    · rcases List.mem_cons.mp hb with rfl | hb'
      · exact .inr (.cons_cons b (List.singleton_sublist.mpr ha'))
      · exact (ih ha' hb').imp (.cons x) (.cons x)

theorem rank_lt {key : α → κ} {l : List α} {a b : α} (ha : a ∈ l) (hb : b ∈ l)
    (h : key b < key a) : [a, b].Sublist (rank key l) := by
  have hp := rank_perm key l
  have hne : a ≠ b := by rintro rfl; exact lt_irrefl _ h
  rcases pair_sublist_or (hp.mem_iff.mpr ha) (hp.mem_iff.mpr hb) hne with hab | hba
  · exact hab
  · have := (rank_pairwise key l).sublist hba
    simp only [List.pairwise_cons, List.mem_singleton, forall_eq] at this
    exact absurd this.1 (not_le.mpr h)

theorem rank_stable {key : α → κ} {l : List α} {a b : α} (h : key a = key b)
    (hl : [a, b].Sublist l) : [a, b].Sublist (rank key l) :=
  List.pair_sublist_mergeSort (notBehind_trans key) (notBehind_total key)
    (decide_eq_true (le_of_eq h.symm)) hl

theorem rank_of_pairwise {key : α → κ} {l : List α} (h : l.Pairwise fun a b => key b ≤ key a) :
    rank key l = l := List.mergeSort_of_pairwise (h.imp decide_eq_true)

/-- The listing against a rate that the key follows. -/
theorem rank_rate {ρ : Type} [LinearOrder ρ] {key : α → κ} {rate : α → ρ} {l : List α}
    (hmono : ∀ a ∈ l, ∀ b ∈ l, rate a ≤ rate b → key a ≤ key b) {a b : α} (ha : a ∈ l)
    (hb : b ∈ l) (h : rate b < rate a) :
    key b ≤ key a ∧ (key b ≠ key a → [a, b].Sublist (rank key l)) := by
  have hle := hmono b hb a ha (le_of_lt h)
  refine ⟨hle, ?_⟩
  intro hne
  exact rank_lt ha hb (lt_of_le_of_ne hle hne)

end Ranking
end Kit
