import Nockmark.Kit.Threads

/-!
# Kit.Erase

Threads that others cannot tell from threads that never ran.

Some threads are seen, and the others are silent for an observer of the shared state. If a silent
thread's move shows the observer nothing, and a seen thread's move depends on no more than what is
observed, then the turns of silent threads can be erased from a schedule.

* `Separates`: the two conditions, for inputs that `Ok` admits and thread states that `On` allows.
* `erase_run`: erasing the turns of any silent threads changes nothing that is seen.
-/

namespace Kit

variable {σ τ ι β : Type}

structure Separates (P : Program σ τ ι) (obs : σ → β) (Seen : ℕ → Prop) (On : ℕ → τ → Prop)
    (Ok : ℕ → ι → Prop) : Prop where
  on : ∀ id s t i, On id t → Ok id i → On id (P.step id s t i).2
  silent : ∀ id s t i, ¬ Seen id → On id t → Ok id i → obs (P.step id s t i).1 = obs s
  seen : ∀ id s s' t i, Seen id → On id t → Ok id i → obs s = obs s' →
    obs (P.step id s t i).1 = obs (P.step id s' t i).1 ∧
      (P.step id s t i).2 = (P.step id s' t i).2

/-- The same to the observer, with every thread in a state that is allowed. -/
structure Alike (obs : σ → β) (Seen : ℕ → Prop) (On : ℕ → τ → Prop) (w w' : Threads σ τ) :
    Prop where
  obs : obs w.shared = obs w'.shared
  thread : ∀ id, Seen id → w.thread id = w'.thread id
  on : ∀ id, On id (w.thread id)
  on' : ∀ id, On id (w'.thread id)

variable {P : Program σ τ ι} {obs : σ → β} {Seen : ℕ → Prop} {On : ℕ → τ → Prop}
  {Ok : ℕ → ι → Prop} {w w' : Threads σ τ}

theorem Separates.on_move (h : Separates P obs Seen On Ok) (hw : ∀ id, On id (w.thread id))
    {id : ℕ} {i : ι} (hi : Ok id i) (j : ℕ) : On j ((P.move w id i).thread j) := by
  by_cases hj : j = id
  · subst hj
    rw [Program.move_thread_self]
    exact h.on j _ _ _ (hw j) hi
  · rw [Program.move_thread_ne w hj]
    exact hw j

theorem Separates.erase_move (h : Separates P obs Seen On Ok) (hw : Alike obs Seen On w w') {id : ℕ}
    {i : ι} (hi : Ok id i) (hid : ¬ Seen id) : Alike obs Seen On (P.move w id i) w' := by
  refine ⟨(h.silent id _ _ _ hid (hw.on id) hi).trans hw.obs, ?_, h.on_move hw.on hi, hw.on'⟩
  intro j hj
  have hne : j ≠ id := fun heq => hid (heq ▸ hj)
  rw [Program.move_thread_ne w hne]
  exact hw.thread j hj

theorem Separates.keep_move (h : Separates P obs Seen On Ok) (hw : Alike obs Seen On w w') {id : ℕ}
    {i : ι} (hi : Ok id i) : Alike obs Seen On (P.move w id i) (P.move w' id i) := by
  by_cases hid : Seen id
  · obtain ⟨hobs, hthread⟩ := h.seen id w.shared w'.shared _ i hid (hw.on id) hi hw.obs
    refine ⟨?_, ?_, h.on_move hw.on hi, h.on_move hw.on' hi⟩
    · rw [Program.move_shared, Program.move_shared, ← hw.thread id hid]
      exact hobs
    · intro j hj
      by_cases hji : j = id
      · subst hji
        rw [Program.move_thread_self, Program.move_thread_self, ← hw.thread j hid]
        exact hthread
      · rw [Program.move_thread_ne w hji, Program.move_thread_ne w' hji]
        exact hw.thread j hj
  · have hleft := h.erase_move hw hi hid
    refine ⟨?_, ?_, hleft.on, h.on_move hw.on' hi⟩
    · rw [hleft.obs, Program.move_shared]
      exact (h.silent id _ _ _ hid (hw.on' id) hi).symm
    · intro j hj
      have hne : j ≠ id := fun heq => hid (heq ▸ hj)
      rw [Program.move_thread_ne w' hne]
      exact hleft.thread j hj

theorem erase_run (h : Separates P obs Seen On Ok) (s₀ : σ) {drop : ℕ → Bool}
    (hdrop : ∀ id, drop id = true → ¬ Seen id) (hw : Alike obs Seen On w w') {is : List (ℕ × ι)}
    (hok : ∀ i ∈ is, Ok i.1 i.2) :
    Alike obs Seen On ((P.threads s₀).run w is)
      ((P.threads s₀).run w' (is.filter fun i => !drop i.1)) := by
  induction is generalizing w w' with
  | nil => exact hw
  | cons i is ih =>
    obtain ⟨hi, his⟩ := List.forall_mem_cons.mp hok
    cases hd : drop i.1 with
    | true =>
      rw [List.filter_cons_of_neg (by simp [hd])]
      exact ih (h.erase_move hw hi (hdrop i.1 hd)) his
    | false =>
      rw [List.filter_cons_of_pos (by simp [hd])]
      exact ih (h.keep_move hw hi) his

end Kit
