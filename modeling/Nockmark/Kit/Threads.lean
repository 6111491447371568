import Nockmark.Kit.Machine

/-!
# Kit.Threads

Threads that share a state. Every thread runs the same program, each over a state of its own, and
the environment chooses which one moves and on what input: a `Machine` whose input is a thread's
number with the input to the thread.

* `Holds.move`: the rule for interleavings. A move keeps the invariant of the shared state and of
  its own thread, and does not disturb the other threads.
* `run_of_final`: a thread that has ended stays where it ended.
-/

namespace Kit

/-- A thread is told its number. -/
structure Program (σ τ ι : Type) where
  start : τ
  step : ℕ → σ → τ → ι → σ × τ

structure Threads (σ τ : Type) where
  shared : σ
  thread : ℕ → τ

namespace Program

variable {σ τ ι : Type} {P : Program σ τ ι}

def move (P : Program σ τ ι) (w : Threads σ τ) (id : ℕ) (i : ι) : Threads σ τ :=
  let r := P.step id w.shared (w.thread id) i
  ⟨r.1, fun j => if j = id then r.2 else w.thread j⟩

/-- No thread has begun. -/
def threads (P : Program σ τ ι) (s : σ) : Machine (Threads σ τ) (ℕ × ι) :=
  ⟨⟨s, fun _ => P.start⟩, fun w i => P.move w i.1 i.2⟩

@[simp] theorem move_shared (w : Threads σ τ) (id : ℕ) (i : ι) :
    (P.move w id i).shared = (P.step id w.shared (w.thread id) i).1 := rfl

@[simp] theorem move_thread_self (w : Threads σ τ) (id : ℕ) (i : ι) :
    (P.move w id i).thread id = (P.step id w.shared (w.thread id) i).2 := if_pos rfl

theorem move_thread_ne (w : Threads σ τ) {id j : ℕ} (h : j ≠ id) (i : ι) :
    (P.move w id i).thread j = w.thread j := if_neg h

/-- `I` holds of the shared state, and `L` of each thread in it. -/
structure Holds (I : σ → Prop) (L : ℕ → σ → τ → Prop) (w : Threads σ τ) : Prop where
  shared : I w.shared
  thread : ∀ id, L id w.shared (w.thread id)

variable {I : σ → Prop} {L : ℕ → σ → τ → Prop}

theorem Holds.move {w : Threads σ τ} (h : Holds I L w) {id : ℕ} {i : ι}
    (hself : I (P.step id w.shared (w.thread id) i).1 ∧
      L id (P.step id w.shared (w.thread id) i).1 (P.step id w.shared (w.thread id) i).2)
    (hother : ∀ j, j ≠ id → L j w.shared (w.thread j) →
      L j (P.step id w.shared (w.thread id) i).1 (w.thread j)) :
    Holds I L (P.move w id i) := by
  refine ⟨hself.1, ?_⟩
  intro j
  by_cases hj : j = id
  · subst hj
    rw [move_shared, move_thread_self]
    exact hself.2
  · rw [move_shared, move_thread_ne w hj]
    exact hother j hj (h.thread j)

/-- A thread state in which no input does anything. -/
def Final (P : Program σ τ ι) (t : τ) : Prop := ∀ id s i, P.step id s t i = (s, t)

theorem move_of_final {w : Threads σ τ} {id : ℕ} (h : P.Final (w.thread id)) (i : ι) :
    P.move w id i = w := by
  unfold move
  rw [h id w.shared i]
  show (⟨w.shared, _⟩ : Threads σ τ) = ⟨w.shared, w.thread⟩
  congr 1
  funext j
  split
  · rename_i hj; rw [hj]
  · rfl

theorem run_of_final {s : σ} {w : Threads σ τ} {id : ℕ} (h : P.Final (w.thread id))
    (is : List (ℕ × ι)) : ((P.threads s).run w is).thread id = w.thread id := by
  induction is generalizing w with
  | nil => rfl
  | cons i is ih =>
    have hw : (P.move w i.1 i.2).thread id = w.thread id := by
      by_cases hi : i.1 = id
      · subst hi; rw [move_of_final h]
      · exact move_thread_ne w (Ne.symm hi) _
    have hmove : (P.threads s).step w i = P.move w i.1 i.2 := rfl
    rw [Machine.run_cons, hmove, ih (hw ▸ h), hw]

end Program
end Kit
