import Nockmark.Kernel.Driver

/-!
# Kernel.SingleUse

Does a nonce get at most one run?

`%new-challenge` puts `used=|` at the nonce that its entropy gives, whatever stands there already.
So the answer depends on the entropy:

* `FreshMint`: the poke mints no nonce whose challenge is already used.
* `runs_nonce_nodup`: in a run of fresh mints no two runs share a nonce, and the nonce of a
  recorded run is rejected from then on.
* `minted_twice_run_twice`: without it, a used challenge can be minted and submitted again.
-/

namespace Nockmark
namespace Kernel

/-- Every recorded run's challenge is marked used, and runs have different nonces. -/
structure SingleUse (s : RegistryState) : Prop where
  used : ∀ r ∈ s.runs, ∃ c, s.challenges.lookup r.nonce = some c ∧ c.used = true
  nodup : (s.runs.map Run.nonce).Nodup

/-- The poke is not a `%new-challenge` whose nonce is that of a used challenge. -/
def FreshMint (s : RegistryState) (p : Poke) : Prop :=
  softCause p.dat = some .newChallenge →
    ∀ c, s.challenges.lookup (end6 p.eny) = some c → c.used = false

theorem SingleUse.init : SingleUse init := ⟨by simp [Kernel.init], by simp [Kernel.init]⟩

theorem SingleUse.mint {s : RegistryState} (hi : SingleUse s) {n : Nat}
    (hf : ∀ c, s.challenges.lookup n = some c → c.used = false) (now : Nat) :
    SingleUse (s.mint n now) := by
  refine ⟨?_, hi.nodup⟩
  intro r hr
  obtain ⟨c, hl, hu⟩ := hi.used r hr
  -- the minted nonce has no run: its challenge would be used
  have hne : r.nonce ≠ n := by
    rintro rfl
    rw [hf c hl] at hu
    cases hu
  exact ⟨c, (lookup_mint_ne s hne now).trans hl, hu⟩

theorem SingleUse.record {s : RegistryState} (hi : SingleUse s) {r : Run} {c : Challenge}
    (hl : s.challenges.lookup r.nonce = some c) (hu : c.used = false) :
    SingleUse (s.record r) := by
  have hnew : ∀ r' ∈ s.runs, r'.nonce ≠ r.nonce := by
    intro r' hr' heq
    obtain ⟨c', hl', hu'⟩ := hi.used r' hr'
    rw [heq, hl] at hl'
    cases hl'
    rw [hu] at hu'
    cases hu'
  constructor
  · intro r' hr'
    rcases List.mem_cons.mp hr' with rfl | hr'
    · exact ⟨_, lookup_record_self s _, rfl⟩
    · obtain ⟨c', hl', hu'⟩ := hi.used r' hr'
      exact ⟨c', (lookup_record_ne s r (hnew r' hr')).trans hl', hu'⟩
  · simp only [record_runs, List.map_cons, List.nodup_cons]
    refine ⟨?_, hi.nodup⟩
    intro hmem
    obtain ⟨r', hr', heq⟩ := List.mem_map.mp hmem
    exact hnew r' hr' heq

theorem SingleUse.step {s : RegistryState} {p : Poke} (hi : SingleUse s) (hf : FreshMint s p) :
    SingleUse (step s p) := by
  obtain h | ⟨hc, h⟩ | ⟨n, hw, pv, k, ms, c, hc, hl, hu, -, -, -, h⟩ := step_cases s p
  · rw [h]; exact hi
  · rw [h]; exact hi.mint (hf hc) p.now
  · rw [h]; exact hi.record hl hu

theorem SingleUse.of_reach {s : RegistryState} (h : kernel.Reach FreshMint s) : SingleUse s :=
  h.inv SingleUse.init (fun _ _ hi hf => hi.step hf)

theorem SingleUse.rejects {s : RegistryState} (hi : SingleUse s) {r : Run} (hr : r ∈ s.runs)
    {p : Poke} {hardware proverVersion k elapsedMs : Nat}
    (hp : softCause p.dat = some (.submitRun r.nonce hardware proverVersion k elapsedMs)) :
    poke s p = some ([.rejected "nonce-used"], s) := by
  obtain ⟨c, hl, hu⟩ := hi.used r hr
  simp only [poke, hp, hl, hu, if_true]

/-- Single use on the ZK track, for runs of pokes that mint no used nonce again. -/
theorem runs_nonce_nodup {s : RegistryState} (h : kernel.Reach FreshMint s) :
    (s.runs.map Run.nonce).Nodup ∧
    ∀ r ∈ s.runs, ∀ (p : Poke) (hardware proverVersion k elapsedMs : Nat),
      softCause p.dat = some (.submitRun r.nonce hardware proverVersion k elapsedMs) →
      poke s p = some ([.rejected "nonce-used"], s) := by
  have hi := SingleUse.of_reach h
  exact ⟨hi.nodup, fun r hr p _ _ _ _ hp => hi.rejects hr hp⟩

/-- A mint of nonce 7 and a submission for it one second later, by the driver. -/
def mintAndSubmit (now : Nat) : List Poke :=
  [⟨7, now, mintCause⟩,
   ⟨0, now + s1, (submitCause 7 "m1-max" "0.1.0" 1 900).getD (.atom 0)⟩]

theorem runs_nonce_nodup_mintAndSubmit :
    kernel.Reach FreshMint (kernel.run kernel.init (mintAndSubmit 0)) ∧
    ((kernel.run kernel.init (mintAndSubmit 0)).runs.map Run.nonce).Nodup ∧
    (kernel.run kernel.init (mintAndSubmit 0)).runs.length = 1 := by
  have h : kernel.Reach FreshMint (kernel.run kernel.init (mintAndSubmit 0)) := by
    refine Kit.Machine.Reach.run .init ⟨?_, ?_, trivial⟩
    · intro _ c hc
      rw [show kernel.init.challenges.lookup (end6 7) = none by decide] at hc
      cases hc
    · intro hc
      rw [show softCause _ = some (.submitRun 7 (cord "m1-max") (cord "0.1.0") 1 900) by decide]
        at hc
      cases hc
  exact ⟨h, (runs_nonce_nodup h).1, by decide⟩

/-- Entropy that repeats: nonce 7 is minted, run, minted again over its used challenge, and run
again. -/
theorem minted_twice_run_twice :
    ¬ ∀ s, kernel.Reach Kit.Machine.free s → (s.runs.map Run.nonce).Nodup := by
  intro h
  have hr := Kit.Machine.reach_run_free kernel (mintAndSubmit 0 ++ mintAndSubmit (2 * s1))
  exact absurd (h _ hr) (by decide)

end Kernel
end Nockmark
