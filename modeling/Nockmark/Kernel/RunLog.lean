import Nockmark.Kernel.Driver

/-!
# Kernel.RunLog

The log of runs, next to the map of challenges and the counter of ids.

* `RunLog`: the log has one run for each id below the counter, newest first, and every run's nonce
  is the key of a challenge.
* `runLog_of_reach`: so it is whatever is poked: malformed nouns, any entropy and any times, and
  clocks that go back behind a mint.
* `runLog_grows`: a poke keeps the log or puts one run in front of it, and its answer says which.
-/

namespace Nockmark
namespace Kernel

structure RunLog (s : RegistryState) : Prop where
  length_eq : s.runs.length = s.nextId
  ids : s.runs.map Run.id = (List.range s.nextId).reverse
  keys : ∀ r ∈ s.runs, r.nonce ∈ s.challenges

theorem RunLog.init : RunLog init := ⟨rfl, rfl, fun r hr => by cases hr⟩

theorem RunLog.mint {s : RegistryState} (h : RunLog s) (nonce now : Nat) :
    RunLog (s.mint nonce now) := by
  refine ⟨h.length_eq, h.ids, ?_⟩
  intro r hr
  exact Finmap.mem_insert.mpr (.inr (h.keys r hr))

theorem RunLog.record {s : RegistryState} (h : RunLog s) {r : Run} (hid : r.id = s.nextId) :
    RunLog (s.record r) := by
  constructor
  · show s.runs.length + 1 = s.nextId + 1
    rw [h.length_eq]
  · show r.id :: s.runs.map Run.id = (List.range (s.nextId + 1)).reverse
    rw [hid, h.ids, List.range_succ, List.reverse_append, List.reverse_singleton,
      List.singleton_append]
  · intro r' hr'
    apply Finmap.mem_insert.mpr
    rcases List.mem_cons.mp hr' with rfl | hr'
    · exact .inl rfl
    · exact .inr (h.keys r' hr')

theorem RunLog.step {s : RegistryState} (h : RunLog s) (p : Poke) : RunLog (step s p) := by
  obtain heq | ⟨-, heq⟩ | ⟨nonce, hw, pv, k, ms, c, -, -, -, -, -, -, heq⟩ := step_cases s p
  · rw [heq]; exact h
  · rw [heq]; exact h.mint _ _
  · rw [heq]; exact h.record rfl

theorem runLog_of_reach {s : RegistryState} {G : RegistryState → Poke → Prop}
    (h : kernel.Reach G s) : RunLog s :=
  h.inv RunLog.init fun _ p hi _ => hi.step p

theorem RunLog.id_lt {s : RegistryState} (h : RunLog s) {r : Run} (hr : r ∈ s.runs) :
    r.id < s.nextId := by
  have hmem : r.id ∈ s.runs.map Run.id := List.mem_map_of_mem hr
  rw [h.ids, List.mem_reverse] at hmem
  exact List.mem_range.mp hmem

/-- What a poke that answers does to the log, by its effects. -/
theorem poke_effects {s s' : RegistryState} {p : Poke} {es : List Effect}
    (h : poke s p = some (es, s')) :
    (∀ reason, .rejected reason ∈ es → s' = s) ∧
    (∀ id, .runRecorded id ∈ es → ∃ r, s'.runs = r :: s.runs ∧ r.id = id) := by
  obtain ⟨⟨reason, rfl⟩, rfl⟩ | ⟨-, rfl, rfl⟩ |
    ⟨nonce, hw, pv, k, ms, c, -, -, -, -, -, -, rfl, rfl⟩ := poke_cases h
  · exact ⟨fun _ _ => rfl, fun id hid => by simp at hid⟩
  · exact ⟨fun reason hr => by simp at hr, fun id hid => by simp at hid⟩
  · refine ⟨fun reason hr => by simp at hr, ?_⟩
    intro id hid
    obtain rfl : id = s.nextId := by simpa using hid
    exact ⟨_, record_runs s _, rfl⟩

/-- The invariant of the run log, and what the next poke makes of it: it grows by at most one run
at its head, a rejection or a crash leaves the state as it was, and an id in answer is that of the
run which that poke added. -/
theorem runLog_grows {s : RegistryState} (h : kernel.Reach Kit.Machine.free s) :
    RunLog s ∧ ∀ p : Poke,
      ((step s p).runs = s.runs ∨ ∃ r, (step s p).runs = r :: s.runs) ∧
      (poke s p = none → step s p = s) ∧
      ∀ es s', poke s p = some (es, s') → step s p = s' ∧
        (∀ reason, .rejected reason ∈ es → s' = s) ∧
        (∀ id, .runRecorded id ∈ es → ∃ r, s'.runs = r :: s.runs ∧ r.id = id) := by
  refine ⟨runLog_of_reach h, ?_⟩
  intro p
  refine ⟨?_, ?_, ?_⟩
  · obtain heq | ⟨-, heq⟩ | ⟨nonce, hw, pv, k, ms, c, -, -, -, -, -, -, heq⟩ := step_cases s p
    · left; rw [heq]
    · left; rw [heq, mint_runs]
    · right; rw [heq]; exact ⟨_, record_runs s _⟩
  · intro hcrash
    rw [step, hcrash]
  · intro es s' hp
    exact ⟨by rw [step, hp], poke_effects hp⟩

/-- A mint of nonce 7, a submission that crashes because the clock went back, a noun that is no
cause, and a submission that is recorded. -/
def backAndForth : List Poke :=
  let submission := (submitCause 7 "m1-max" "0.1.0" 1 900).getD (.atom 0)
  [⟨7, s1, mintCause⟩, ⟨0, 0, submission⟩, ⟨0, 0, .atom 3⟩, ⟨0, 2 * s1, submission⟩]

theorem runLog_grows_backAndForth :
    RunLog (kernel.run kernel.init backAndForth) ∧
      (kernel.run kernel.init backAndForth).runs.length = 1 := by
  have h := (runLog_grows (Kit.Machine.reach_run_free kernel backAndForth)).1
  exact ⟨h, h.length_eq.trans (by decide)⟩

end Kernel
end Nockmark
