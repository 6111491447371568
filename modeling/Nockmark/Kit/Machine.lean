import Mathlib.Data.List.Basic

/-!
# Kit.Machine

Machines that take one input at a time. The environment's choices (clock readings, entropy,
scheduling, faults) are part of the input, so a machine is a function of state and input.

* `run m s is`: the state after the inputs `is`.
* `Reach m G s`: the states some run reaches, every input of which `G` allows in the state that
  it meets. `G` is how an assumption on the environment is stated step by step.
* `Reach.inv`: what one allowed step preserves, every run preserves.
* `run_iff_since`: what inputs set and clear holds at last if it was set and not cleared since.
-/

namespace Kit

structure Machine (σ ι : Type) where
  init : σ
  step : σ → ι → σ

namespace Machine

variable {σ ι : Type}

def run (m : Machine σ ι) (s : σ) (is : List ι) : σ := is.foldl m.step s

@[simp] theorem run_nil (m : Machine σ ι) (s : σ) : m.run s [] = s := rfl

@[simp] theorem run_cons (m : Machine σ ι) (s : σ) (i : ι) (is : List ι) :
    m.run s (i :: is) = m.run (m.step s i) is := rfl

theorem run_append (m : Machine σ ι) (s : σ) (is js : List ι) :
    m.run s (is ++ js) = m.run (m.run s is) js := List.foldl_append

/-- States reached from `m.init` by inputs that `G` allows where they are met. -/
inductive Reach (m : Machine σ ι) (G : σ → ι → Prop) : σ → Prop where
  | init : Reach m G m.init
  | step {s : σ} {i : ι} : Reach m G s → G s i → Reach m G (m.step s i)

/-- The environment is unconstrained. -/
def free : σ → ι → Prop := fun _ _ => True

/-- The invariant rule. -/
theorem Reach.inv {m : Machine σ ι} {G : σ → ι → Prop} {I : σ → Prop} (h0 : I m.init)
    (hstep : ∀ s i, I s → G s i → I (m.step s i)) {s : σ} (h : Reach m G s) : I s := by
  induction h with
  | init => exact h0
  | step _ hg ih => exact hstep _ _ ih hg

theorem Reach.mono {m : Machine σ ι} {G H : σ → ι → Prop} (hGH : ∀ s i, G s i → H s i) {s : σ}
    (h : Reach m G s) : Reach m H s := by
  induction h with
  | init => exact .init
  | step _ hg ih => exact .step ih (hGH _ _ hg)

/-- A run from a reached state reaches further states, if each of its inputs is allowed. -/
def Allowed (m : Machine σ ι) (G : σ → ι → Prop) : σ → List ι → Prop
  | _, [] => True
  | s, i :: is => G s i ∧ Allowed m G (m.step s i) is

theorem Reach.run {m : Machine σ ι} {G : σ → ι → Prop} {s : σ} (h : Reach m G s) {is : List ι}
    (ha : Allowed m G s is) : Reach m G (m.run s is) := by
  induction is generalizing s with
  | nil => exact h
  | cons i is ih => exact ih (.step h ha.1) ha.2

theorem allowed_free (m : Machine σ ι) (s : σ) (is : List ι) : Allowed m free s is := by
  induction is generalizing s with
  | nil => trivial
  | cons i is ih => exact ⟨trivial, ih _⟩

/-- Every list of inputs leads to a reached state of the unconstrained machine. -/
theorem reach_run_free (m : Machine σ ι) (is : List ι) : Reach m free (m.run m.init is) :=
  Reach.run .init (allowed_free m _ is)

/-- Some input of the run sets, and none clears after it. -/
def Since (m : Machine σ ι) (sets clears : σ → ι → Prop) (s : σ) (is : List ι) : Prop :=
  ∃ pre i post, is = pre ++ i :: post ∧ sets (m.run s pre) i ∧
    Allowed m (fun s i => ¬ clears s i) (m.step (m.run s pre) i) post

theorem since_cons {m : Machine σ ι} {sets clears : σ → ι → Prop} {s : σ} {i : ι} {is : List ι} :
    Since m sets clears s (i :: is) ↔
      (sets s i ∧ Allowed m (fun s i => ¬ clears s i) (m.step s i) is) ∨
        Since m sets clears (m.step s i) is := by
  constructor
  · rintro ⟨pre, j, post, heq, hset, hkeep⟩
    cases pre with
    | nil =>
      cases heq
      exact .inl ⟨hset, hkeep⟩
    | cons _ pre =>
      cases heq
      exact .inr ⟨pre, j, post, rfl, hset, hkeep⟩
  · rintro (⟨hset, hkeep⟩ | ⟨pre, j, post, rfl, hset, hkeep⟩)
    · exact ⟨[], i, is, rfl, hset, hkeep⟩
    · exact ⟨i :: pre, j, post, rfl, hset, hkeep⟩

theorem run_iff_since {m : Machine σ ι} {P : σ → Prop} {sets clears : σ → ι → Prop}
    (hstep : ∀ s i, P (m.step s i) ↔ sets s i ∨ P s ∧ ¬ clears s i) (s : σ) (is : List ι) :
    P (m.run s is) ↔
      Since m sets clears s is ∨ P s ∧ Allowed m (fun s i => ¬ clears s i) s is := by
  induction is generalizing s with
  | nil => simp [Since, Allowed]
  | cons i is ih =>
    rw [run_cons, ih, hstep, since_cons, Allowed]
    tauto

end Machine
end Kit
