import Mathlib.Data.List.Basic
import Mathlib.Data.List.GetD
import Mathlib.Data.List.Range

/-!
# Kit.Search

Searching an interval of numbers, in ascending order, for the first `k` that satisfy `p`.

* `hits p lo hi`: the numbers in `[lo, hi)` that satisfy `p`, ascending.
* `search p k lo hi`: the first `k` of them with the number after the last, if there are `k`.
* `search_skip`, `search_hit`: what a searcher may do to the interval: drop a part without hits,
  or take the first hit and continue behind it. Any search built of these two steps, in whatever
  portions it looks, computes `search`.
* `search_sound`: nothing was missed before the number that a search ends at.
-/

namespace Kit
namespace Search

def hits (p : Nat → Bool) (lo hi : Nat) : List Nat := (List.range' lo (hi - lo)).filter p

theorem mem_hits {p : Nat → Bool} {lo hi n : Nat} :
    n ∈ hits p lo hi ↔ (lo ≤ n ∧ n < hi) ∧ p n = true := by
  rw [hits, List.mem_filter, List.mem_range'_1]
  constructor
  · rintro ⟨⟨h1, h2⟩, h3⟩; exact ⟨⟨h1, by omega⟩, h3⟩
  · rintro ⟨⟨h1, h2⟩, h3⟩; exact ⟨⟨h1, by omega⟩, h3⟩

theorem hits_append (p : Nat → Bool) {lo mid hi : Nat} (h1 : lo ≤ mid) (h2 : mid ≤ hi) :
    hits p lo hi = hits p lo mid ++ hits p mid hi := by
  have hr : List.range' lo (hi - lo) =
      List.range' lo (mid - lo) ++ List.range' mid (hi - mid) := by
    rw [show hi - lo = (mid - lo) + (hi - mid) by omega, ← List.range'_append_1,
      show lo + (mid - lo) = mid by omega]
  rw [hits, hr, List.filter_append]
  rfl

theorem hits_singleton (p : Nat → Bool) (n : Nat) :
    hits p n (n + 1) = if p n then [n] else [] := by
  rw [hits, show n + 1 - n = 1 by omega, List.range'_one, List.filter_singleton]
  cases p n <;> rfl

theorem hits_of_le (p : Nat → Bool) {lo hi : Nat} (h : hi ≤ lo) : hits p lo hi = [] := by
  rw [hits, show hi - lo = 0 by omega]
  rfl

/-- The first hit splits the hits: nothing before it, the rest behind it. -/
theorem hits_of_head {p : Nat → Bool} {lo hi w : Nat} (h : (hits p lo hi).head? = some w) :
    (lo ≤ w ∧ w < hi ∧ p w = true) ∧ hits p lo w = [] ∧
      hits p lo hi = w :: hits p (w + 1) hi := by
  obtain ⟨⟨hlo, hhi⟩, hp⟩ := mem_hits.mp (List.mem_of_mem_head? h)
  have hsplit : hits p lo hi = hits p lo w ++ (w :: hits p (w + 1) hi) := by
    rw [hits_append p hlo (by omega : w ≤ hi), hits_append p (Nat.le_succ w) hhi,
      hits_singleton, if_pos hp, List.singleton_append]
  have hnil : hits p lo w = [] := by
    cases hc : hits p lo w with
    | nil => rfl
    | cons x xs =>
      rw [hsplit, hc] at h
      cases h
      have hx := mem_hits.mp (show w ∈ hits p lo w by rw [hc]; simp)
      omega
  refine ⟨⟨hlo, hhi, hp⟩, hnil, ?_⟩
  rw [hsplit, hnil, List.nil_append]

def search (p : Nat → Bool) (k lo hi : Nat) : Option (List Nat × Nat) :=
  if k ≤ (hits p lo hi).length then
    some ((hits p lo hi).take k, (hits p lo hi).getD (k - 1) 0 + 1)
  else none

theorem search_skip {p : Nat → Bool} {k lo mid hi : Nat} (h1 : lo ≤ mid) (h2 : mid ≤ hi)
    (h : hits p lo mid = []) : search p k lo hi = search p k mid hi := by
  unfold search
  rw [hits_append p h1 h2, h, List.nil_append]

theorem search_of_le {p : Nat → Bool} {k lo hi : Nat} (hk : 0 < k) (h : hi ≤ lo) :
    search p k lo hi = none := by
  unfold search
  rw [hits_of_le p h, if_neg (by simp; omega)]

/-- The last hit wanted ends the search just behind it. -/
theorem search_last {p : Nat → Bool} {lo hi w : Nat} (h : (hits p lo hi).head? = some w) :
    search p 1 lo hi = some ([w], w + 1) := by
  unfold search
  rw [(hits_of_head h).2.2]
  simp

/-- A hit before the last is the first of the result; the others lie behind it. -/
theorem search_hit {p : Nat → Bool} {k lo hi w : Nat} (hk : 0 < k)
    (h : (hits p lo hi).head? = some w) :
    search p (k + 1) lo hi =
      (search p k (w + 1) hi).map fun r => (w :: r.1, r.2) := by
  unfold search
  rw [(hits_of_head h).2.2]
  by_cases hl : k ≤ (hits p (w + 1) hi).length
  · rw [if_pos (by simpa using hl), if_pos hl, Option.map_some, List.take_succ_cons]
    obtain ⟨j, rfl⟩ := Nat.exists_eq_add_of_lt hk
    simp
  · rw [if_neg (by simpa using hl), if_neg hl, Option.map_none]

/-- A searcher that looks at one number at a time. -/
theorem search_step {p : Nat → Bool} {k lo hi : Nat} (h : lo < hi) :
    search p (k + 1) lo hi =
      if p lo then
        if k = 0 then some ([lo], lo + 1)
        else (search p k (lo + 1) hi).map fun r => (lo :: r.1, r.2)
      else search p (k + 1) (lo + 1) hi := by
  have hone := hits_singleton p lo
  cases hp : p lo with
  | false =>
    rw [hp] at hone
    exact search_skip (Nat.le_succ lo) h hone
  | true =>
    rw [hp] at hone
    have hhead : (hits p lo hi).head? = some lo := by
      rw [hits_append p (Nat.le_succ lo) h, hone]
      rfl
    rw [if_pos rfl]
    rcases Nat.eq_zero_or_pos k with rfl | hk
    · rw [if_pos rfl, search_last hhead]
    · rw [if_neg (by omega), search_hit hk hhead]

theorem pairwise_hits (p : Nat → Bool) (lo hi : Nat) : (hits p lo hi).Pairwise (· < ·) :=
  (List.pairwise_lt_range' 1).filter _

/-- A search that ends has found the hits before the number it ends at, and the last number before
it is one. -/
theorem search_sound {p : Nat → Bool} {k lo hi : Nat} (hk : 0 < k) {ws : List Nat} {last : Nat}
    (h : search p k lo hi = some (ws, last)) :
    ws = hits p lo last ∧ ws.length = k ∧ last ≤ hi ∧ ∃ w, last = w + 1 ∧ lo ≤ w ∧ p w = true := by
  induction hd : hi - lo generalizing k lo ws last with
  | zero =>
    rw [search_of_le hk (by omega)] at h
    cases h
  | succ d ih =>
    obtain ⟨k, rfl⟩ := Nat.exists_eq_succ_of_ne_zero (Nat.ne_of_gt hk)
    have hlt : lo < hi := by omega
    have hone := hits_singleton p lo
    rw [search_step hlt] at h
    cases hp : p lo with
    | false =>
      rw [hp, if_neg (by simp)] at h
      obtain ⟨rfl, hlen, hle, w, rfl, hlo, hw⟩ := ih hk h (by omega)
      refine ⟨?_, hlen, hle, w, rfl, by omega, hw⟩
      rw [hits_append p (Nat.le_succ lo) (by omega), hone, hp]
      rfl
    | true =>
      rw [hp, if_pos rfl] at h
      split at h
      · rename_i hk0
        cases h
        refine ⟨?_, by rw [hk0]; rfl, hlt, lo, rfl, Nat.le_refl lo, hp⟩
        rw [hone, hp]
        rfl
      · rename_i hk0
        obtain ⟨r, hr, heq⟩ := Option.map_eq_some_iff.mp h
        cases heq
        obtain ⟨hws, hlen, hle, w, hlast, hlo, hw⟩ := ih (by omega) hr (by omega)
        refine ⟨?_, by rw [List.length_cons, hlen], hle, w, hlast, by omega, hw⟩
        rw [hlast, hits_append p (Nat.le_succ lo) (by omega), hone, hp, hws, hlast]
        rfl

end Search
end Kit
