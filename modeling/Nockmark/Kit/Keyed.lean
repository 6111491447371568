import Mathlib.Data.List.Nodup
import Mathlib.Logic.Function.Basic

/-!
# Kit.Keyed

One cell per key. An input goes to the cell of its key, which answers it and moves on; a cell has
no state before its first input.

* `answers_filter`: what a key is answered is what its own inputs alone are answered.
* `Forgets`: a store has lost some cells, but no input that is still to come can tell. One input
  keeps this (`Forgets.step`), and so does losing further cells of that kind (`Forgets.lose`).
-/

namespace Kit
namespace Keyed

variable {κ σ ι α : Type}

section Run

variable [DecidableEq κ]

/-- The cells after an input: only the one of its key has moved. -/
def next (f : Option σ → ι → α × σ) (key : ι → κ) (m : κ → Option σ) (i : ι) : κ → Option σ :=
  Function.update m (key i) (some (f (m (key i)) i).2)

/-- Each input with its answer. -/
def answers (f : Option σ → ι → α × σ) (key : ι → κ) (m : κ → Option σ) : List ι → List (ι × α)
  | [] => []
  | i :: is => (i, (f (m (key i)) i).1) :: answers f key (next f key m i) is

/-- A single cell. -/
def cell (f : Option σ → ι → α × σ) (s : Option σ) : List ι → List (ι × α)
  | [] => []
  | i :: is => (i, (f s i).1) :: cell f (some (f s i).2) is

variable {f : Option σ → ι → α × σ} {key : ι → κ}

theorem next_self (m : κ → Option σ) (i : ι) :
    next f key m i (key i) = some (f (m (key i)) i).2 := Function.update_self ..

theorem next_ne (m : κ → Option σ) {i : ι} {k : κ} (h : k ≠ key i) : next f key m i k = m k :=
  Function.update_of_ne h ..

/-- A cell is not reached by the inputs of other keys. -/
theorem answers_filter (k : κ) (m : κ → Option σ) (is : List ι) :
    (answers f key m is).filter (fun a => key a.1 = k) =
      cell f (m k) (is.filter fun i => key i = k) := by
  induction is generalizing m with
  | nil => rfl
  | cons i is ih =>
    by_cases h : key i = k
    · rw [answers, List.filter_cons_of_pos (by simpa using h),
        List.filter_cons_of_pos (by simpa using h), cell, ih, ← h, next_self]
    · rw [answers, List.filter_cons_of_neg (by simpa using h),
        List.filter_cons_of_neg (by simpa using h), ih, next_ne m (Ne.symm h)]

theorem answers_eq_cell {k : κ} {is : List ι} (h : ∀ i ∈ is, key i = k) (m : κ → Option σ) :
    answers f key m is = cell f (m k) is := by
  induction is generalizing m with
  | nil => rfl
  | cons i is ih =>
    obtain rfl := h i List.mem_cons_self
    rw [answers, cell, ih fun j hj => h j (List.mem_cons_of_mem _ hj), next_self]

end Run

/-! ### Stores that forget -/

/-- `h` holds the cells `m`, except for some that no input of `is` would find different from a
cell that is new. -/
def Forgets (f : Option σ → ι → α × σ) (key : ι → κ) (m h : κ → Option σ) (is : List ι) : Prop :=
  ∀ k, h k = m k ∨ h k = none ∧ ∀ i ∈ is, key i = k → f (m k) i = f none i

section Forgets

variable {f : Option σ → ι → α × σ} {key : ι → κ} {m h h' : κ → Option σ} {i : ι} {is : List ι}

theorem Forgets.refl (f : Option σ → ι → α × σ) (key : ι → κ) (m : κ → Option σ) (is : List ι) :
    Forgets f key m m is := fun _ => .inl rfl

theorem Forgets.answer (hf : Forgets f key m h (i :: is)) : f (h (key i)) i = f (m (key i)) i := by
  rcases hf (key i) with heq | ⟨hnone, hdead⟩
  · rw [heq]
  · rw [hnone, hdead i List.mem_cons_self rfl]

theorem Forgets.step [DecidableEq κ] (hf : Forgets f key m h (i :: is)) :
    Forgets f key (next f key m i) (next f key h i) is := by
  intro k
  by_cases hk : k = key i
  · subst hk
    rw [next_self, next_self, hf.answer]
    exact .inl rfl
  · rw [next_ne m hk, next_ne h hk]
    exact (hf k).imp id fun ⟨hnone, hdead⟩ =>
      ⟨hnone, fun j hj => hdead j (List.mem_cons_of_mem _ hj)⟩

/-- A store may lose a cell that holds nothing more for the inputs to come. -/
theorem Forgets.lose (hf : Forgets f key m h is)
    (hl : ∀ k, h' k = h k ∨ h' k = none ∧ ∀ i ∈ is, key i = k → f (h k) i = f none i) :
    Forgets f key m h' is := by
  intro k
  rcases hl k with heq | ⟨hnone, hdead⟩
  · rw [heq]
    exact hf k
  · rcases hf k with heq | ⟨-, hdead'⟩
    · exact .inr ⟨hnone, heq ▸ hdead⟩
    · exact .inr ⟨hnone, hdead'⟩

end Forgets

/-- Where no key occurs twice, the entry of a key is the first one that is found. -/
theorem find?_eq_some_iff {α κ : Type} [DecidableEq κ] {key : α → κ} {xs : List α}
    (h : (xs.map key).Nodup) {k : κ} {x : α} :
    xs.find? (fun y => key y = k) = some x ↔ x ∈ xs ∧ key x = k := by
  constructor
  · intro hx
    exact ⟨List.mem_of_find?_eq_some hx, by simpa using List.find?_some hx⟩
  · rintro ⟨hx, hk⟩
    cases hf : xs.find? (fun y => key y = k) with
    | none =>
      have := List.find?_eq_none.mp hf x hx
      simp [hk] at this
    | some y =>
      have hy := List.mem_of_find?_eq_some hf
      have hky : key y = k := by simpa using List.find?_some hf
      rw [List.inj_on_of_nodup_map h hy hx (hky.trans hk.symm)]

end Keyed
end Kit
