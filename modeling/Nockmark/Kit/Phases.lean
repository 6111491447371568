import Mathlib.Data.List.Dedup

/-!
# Kit.Phases

A list in phases: a phase lasts until `k` distinct elements have occurred in it, and what comes
after that begins a new one.

* `phases_fresh`: elements that are new to a phase extend it, up to `k` of them.
* `phases_full`: a full phase is over.
-/

namespace Kit
namespace Phases

variable {α : Type} [DecidableEq α]

/-- The phases of a list, the first of which has already had `cur`. -/
def phases (k : Nat) (cur : List α) : List α → List (List α)
  | [] => [cur]
  | a :: as =>
    if k ≤ cur.dedup.length then cur :: phases k [a] as else phases k (cur ++ [a]) as

theorem phases_full {k : Nat} {cur : List α} (h : k ≤ cur.dedup.length) (a : α) (as : List α) :
    phases k cur (a :: as) = cur :: phases k [a] as := if_pos h

theorem phases_short {k : Nat} {cur : List α} (h : ¬ k ≤ cur.dedup.length) (a : α)
    (as : List α) : phases k cur (a :: as) = phases k (cur ++ [a]) as := if_neg h

theorem phases_fresh {k : Nat} {cur fresh : List α} (hn : (cur ++ fresh).Nodup)
    (hk : (cur ++ fresh).length ≤ k) (rest : List α) :
    phases k cur (fresh ++ rest) = phases k (cur ++ fresh) rest := by
  induction fresh generalizing cur with
  | nil => rw [List.append_nil, List.nil_append]
  | cons a fresh ih =>
    have hcur : cur.dedup = cur := List.dedup_eq_self.mpr hn.of_append_left
    have hshort : ¬ k ≤ cur.dedup.length := by
      rw [hcur]
      rw [List.length_append, List.length_cons] at hk
      omega
    rw [List.append_cons] at hn hk
    rw [List.cons_append, phases_short hshort, ih hn hk, ← List.append_cons]

theorem length_le_of_mem {k : Nat} {cur as block : List α} (h : block ∈ phases k cur as) :
    block.length ≤ cur.length + as.length := by
  induction as generalizing cur with
  | nil =>
    obtain rfl := List.mem_singleton.mp h
    exact Nat.le_refl _
  | cons a as ih =>
    rw [phases] at h
    rw [List.length_cons]
    split at h
    · rcases List.mem_cons.mp h with rfl | h
      · exact Nat.le_add_right _ _
      · have := ih h
        rw [List.length_singleton] at this
        omega
    · have := ih h
      rw [List.length_append, List.length_singleton] at this
      omega

end Phases
end Kit
