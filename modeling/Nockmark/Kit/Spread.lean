import Mathlib.Data.List.FinRange
import Mathlib.Tactic.Ring

/-!
# Kit.Spread

Positions spread evenly over a list, and its last one: `i * len / n` for `i < n`, then `len - 1`.

With fewer positions than elements the spread ones ascend (`position_strictMono`) and stay below
the last (`position_below_last`), so that `spread` is a list of positions without repetition.
-/

namespace Kit
namespace Spread

def position (len n i : Nat) : Nat := i * len / n

theorem position_strictMono {len n : Nat} (hn : 0 < n) (h : n ≤ len) :
    StrictMono (position len n) := by
  apply strictMono_nat_of_lt_succ
  intro i
  have hstep : i * len + n ≤ (i + 1) * len := by rw [Nat.succ_mul]; omega
  calc position len n i < i * len / n + 1 := Nat.lt_succ_self _
    _ = (i * len + n) / n := (Nat.add_div_right _ hn).symm
    _ ≤ position len n (i + 1) := Nat.div_le_div_right hstep

theorem position_below_last {len n i : Nat} (h : n < len) (hi : i < n) :
    position len n i + 1 < len := by
  have hmono := (position_strictMono (by omega) h.le).monotone (show i ≤ n - 1 by omega)
  refine lt_of_le_of_lt (Nat.add_le_add_right hmono 1) ?_
  -- the last spread position is a whole step short of the end
  obtain ⟨m, rfl⟩ : ∃ m, n = m + 1 := ⟨n - 1, by omega⟩
  have hshort : m * len + (m + 1) < len * (m + 1) := by
    have : len * (m + 1) = m * len + len := by ring
    omega
  have hdiv : (m * len + (m + 1)) / (m + 1) < len :=
    (Nat.div_lt_iff_lt_mul (Nat.succ_pos m)).mpr hshort
  rwa [Nat.add_div_right _ (Nat.succ_pos m)] at hdiv

def pick {len n : Nat} (h : n < len) (i : Fin n) : Fin len :=
  ⟨position len n i, Nat.lt_of_succ_lt (position_below_last h i.isLt)⟩

/-- The spread positions and the last one. -/
def spread {len n : Nat} (h : n < len) : List (Fin len) :=
  (List.finRange n).map (pick h) ++ [⟨len - 1, by omega⟩]

theorem length_spread {len n : Nat} (h : n < len) : (spread h).length = n + 1 := by
  simp [spread]

theorem spread_ascends {len n : Nat} (h : n < len) : (spread h).Pairwise (· < ·) := by
  rw [spread, List.pairwise_append]
  refine ⟨?_, List.pairwise_singleton _ _, ?_⟩
  · apply List.Pairwise.map _ _ (List.pairwise_lt_finRange n)
    intro i j hij
    exact position_strictMono (Nat.zero_lt_of_lt i.isLt) h.le hij
  · intro a ha b hb
    obtain ⟨i, -, rfl⟩ := List.mem_map.mp ha
    have hlast := position_below_last h i.isLt
    rw [List.mem_singleton.mp hb, pick, Fin.mk_lt_mk]
    omega

theorem last_mem_spread {len n : Nat} (h : n < len) : (⟨len - 1, by omega⟩ : Fin len) ∈ spread h :=
  List.mem_append_right _ (List.mem_singleton_self _)

theorem first_mem_spread {len n : Nat} (h : n < len) (hn : 0 < n) :
    (⟨0, by omega⟩ : Fin len) ∈ spread h := by
  apply List.mem_append_left
  refine List.mem_map.mpr ⟨⟨0, hn⟩, List.mem_finRange _, ?_⟩
  simp [pick, position]

end Spread
end Kit
