import Nockmark.Kernel.Window
import Nockmark.Registry.Board

/-!
# Registry.LowerBound

Is the figure that ranks a ZK run a lower bound of its rate?

Two roundings raise it: the window is cut to whole milliseconds, and the rate goes to the nearest
ten-thousandth. The clamp to 1 ms lowers it.

* `tenThousandths_le_iff`: when the rounded figure stays below the exact rate.
* `published_le_iff`: so it is for every run that a kernel records.
* `published_too_high`: one proof in a millisecond and a half.
-/

namespace Nockmark
namespace Registry

open Kernel (RunRecord Run RegistryState)

/-- For `k` proofs in `d` units of `2^-64` s: the interval is below a millisecond, or the rate in
ten-thousandths rounds down over its whole milliseconds and loses there no less than the cut part
of a millisecond gains. -/
def RoundsDown (k d : ℕ) : Prop :=
  let w := d * 1000 / 2 ^ 64
  let n := 10000000 * k / w
  let r := 10000000 * k % w
  w = 0 ∨ 2 * r < w ∧ n * (d * 1000 % 2 ^ 64) ≤ r * 2 ^ 64

instance (k d : ℕ) : Decidable (RoundsDown k d) := by unfold RoundsDown; infer_instance

/-- The exact rate in proofs per second. -/
def rateOver (k d : ℕ) : ℚ := k / (d / 2 ^ 64)

theorem div_le_rateOver {m k d : ℕ} (hd : 0 < d) :
    (m : ℚ) / 10000 ≤ rateOver k d ↔ m * (d * 1000) ≤ 10000000 * k * 2 ^ 64 := by
  have hd' : (0 : ℚ) < d := by exact_mod_cast hd
  rw [rateOver, div_div_eq_mul_div, div_le_div_iff₀ (by norm_num) hd']
  have hcast : (m * (d * 1000) ≤ 10000000 * k * 2 ^ 64) ↔
      ((m : ℚ) * (d * 1000) ≤ 10000000 * k * 2 ^ 64) := by exact_mod_cast Iff.rfl
  rw [hcast]
  constructor
  · intro h; linarith
  · intro h; linarith

theorem tenThousandths_le_iff {k d : ℕ} (hd : 0 < d) :
    (Kit.Round.roundAway ((10000000 * k : ℕ) / (max (d * 1000 / 2 ^ 64) 1 : ℕ)) : ℚ) / 10000 ≤
      rateOver k d ↔ RoundsDown k d := by
  rw [Kit.Round.roundAway_natDiv _ (by omega)]
  have hdm := Nat.div_add_mod (d * 1000) (2 ^ 64)
  have hrem := Nat.mod_lt (d * 1000) (show 0 < 2 ^ 64 by omega)
  simp only [RoundsDown]
  generalize hw : d * 1000 / 2 ^ 64 = w at *
  generalize d * 1000 % 2 ^ 64 = ρ at *
  rcases Nat.eq_zero_or_pos w with h0 | h0
  · -- below a millisecond: the window counts as a whole one
    subst h0
    simp only [Nat.zero_max, Nat.mod_one, Nat.div_one]
    rw [if_pos (by norm_num), Int.cast_natCast, div_le_rateOver hd]
    refine ⟨fun _ => .inl trivial, fun _ => ?_⟩
    exact Nat.mul_le_mul_left _ (by omega)
  · have hmax : max w 1 = w := Nat.max_eq_left h0
    have hqr := Nat.div_add_mod (10000000 * k) w
    have hr := Nat.mod_lt (10000000 * k) h0
    rw [hmax]
    generalize 10000000 * k / w = n at *
    generalize 10000000 * k % w = r at *
    have hmul : n * (d * 1000) = n * w * 2 ^ 64 + n * ρ := by rw [← hdm]; ring
    have hexp : 10000000 * k * 2 ^ 64 = n * w * 2 ^ 64 + r * 2 ^ 64 := by rw [← hqr]; ring
    split
    · rename_i hlt
      rw [Int.cast_natCast, div_le_rateOver hd, hmul, hexp, Nat.add_le_add_iff_left]
      constructor
      · intro h; exact .inr ⟨hlt, h⟩
      · rintro (h | h)
        · omega
        · exact h.2
    · -- rounded up, the figure exceeds even the rate over whole milliseconds
      rename_i hge
      rw [show (((n : ℤ) + 1 : ℤ) : ℚ) = ((n + 1 : ℕ) : ℚ) by push_cast; ring, div_le_rateOver hd]
      have hup : 10000000 * k * 2 ^ 64 < (n + 1) * (d * 1000) := by
        calc 10000000 * k * 2 ^ 64 = (n * w + r) * 2 ^ 64 := by rw [hexp]; ring
          _ < (n * w + w) * 2 ^ 64 := Nat.mul_lt_mul_of_pos_right (by omega) (by omega)
          _ = (n + 1) * (2 ^ 64 * w) := by ring
          _ ≤ (n + 1) * (d * 1000) := Nat.mul_le_mul_left _ (by omega)
      constructor
      · intro h; omega
      · rintro (h | h)
        · omega
        · exact absurd h.1 hge

theorem toEntry_le_iff (econ : Econ) {rec : RunRecord} (hlt : rec.issuedAt < rec.submittedAt)
    (hle : rec.submittedAt ≤ rec.issuedAt + Kernel.h1) :
    (toEntry econ rec).proofsPerSec ≤ rateOver rec.k (rec.submittedAt - rec.issuedAt) ↔
      RoundsDown rec.k (rec.submittedAt - rec.issuedAt) := by
  have hw : (toEntry econ rec).serverWindowMs =
      max ((rec.submittedAt - rec.issuedAt) * 1000 / 2 ^ 64) 1 := by
    show max (Kernel.daDiffToMs rec.issuedAt rec.submittedAt) 1 = _
    rw [Kernel.daDiffToMs_eq hle]
  rw [proofsPerSec_eq, hw]
  exact tenThousandths_le_iff (by omega)

/-- For every recorded run, the published figure is at most the exact rate if and only if the
roundings go down. -/
theorem published_le_iff (econ : Econ) {s : RegistryState}
    (h : Kernel.kernel.Reach Kit.Machine.free s) {r : Run} (hr : r ∈ s.runs) {rec : RunRecord}
    (hrec : RunRecord.fromNoun r = .ok rec) (hlt : r.issuedAt < r.submittedAt) :
    (toEntry econ rec).proofsPerSec ≤ rateOver r.k (r.submittedAt - r.issuedAt) ↔
      RoundsDown r.k (r.submittedAt - r.issuedAt) := by
  obtain ⟨-, -, hk, -, hi, hs⟩ := RunRecord.fromNoun_eq_ok hrec
  have hw := (Kernel.inWindow_of_reach h r hr).submitted_le
  rw [← hi, ← hs] at hlt hw ⊢
  rw [← hk]
  exact toEntry_le_iff econ hlt hw

/-- A mint at time 0 and a submission of one proof at `now`. -/
def oneProofAt (now : ℕ) (elapsedMs : UInt64) : List Kernel.Poke :=
  [⟨7, 0, Kernel.mintCause⟩,
   ⟨0, now, (Kernel.submitCause 7 "m1-max" "0.1.0" 1 elapsedMs).getD (.atom 0)⟩]

def afterOneProofAt (now : ℕ) (elapsedMs : UInt64) : RegistryState :=
  Kernel.kernel.run Kernel.kernel.init (oneProofAt now elapsedMs)

theorem published_le_iff_oneSecond :
    ∃ r ∈ (afterOneProofAt (2 ^ 64) 900).runs, ∃ rec, RunRecord.fromNoun r = .ok rec ∧
      (toEntry ⟨none, 150⟩ rec).proofsPerSec ≤ rateOver r.k (r.submittedAt - r.issuedAt) := by
  have h := Kit.Machine.reach_run_free Kernel.kernel (oneProofAt (2 ^ 64) 900)
  refine ⟨_, List.mem_singleton.mpr rfl, _, rfl, ?_⟩
  rw [published_le_iff _ h (List.mem_singleton.mpr rfl) rfl (by decide)]
  decide

/-- One proof in a millisecond and a half is published as 1000 per second. -/
theorem published_too_high :
    ¬ ∀ (econ : Econ) (s : RegistryState), Kernel.kernel.Reach Kit.Machine.free s → ∀ r ∈ s.runs,
      ∀ rec, RunRecord.fromNoun r = .ok rec → r.issuedAt < r.submittedAt →
      (toEntry econ rec).proofsPerSec ≤ rateOver r.k (r.submittedAt - r.issuedAt) := by
  intro h
  have hr := Kit.Machine.reach_run_free Kernel.kernel (oneProofAt 27670116110564327 1)
  have hle := h ⟨none, 150⟩ _ hr _ (List.mem_singleton.mpr rfl) _ rfl (by decide)
  have hdown := (toEntry_le_iff ⟨none, 150⟩ (by decide) (by decide)).mp hle
  exact absurd hdown (by decide)

end Registry
end Nockmark
