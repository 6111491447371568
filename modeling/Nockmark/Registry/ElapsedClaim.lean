import Mathlib.Algebra.Order.Floor.Semifield
import Mathlib.Data.Rat.Floor
import Mathlib.Tactic.NormNum
import Mathlib.Tactic.Positivity
import Mathlib.Tactic.Linarith
import Nockmark.Kernel.Driver

/-!
# Registry.ElapsedClaim

Does an honest claim fit the window? `tock bench` rounds the seconds it measured up to whole
milliseconds (`tock/src/main.rs`), and the kernel rounds its window down to whole milliseconds.

Durations are exact, in any ordered field with floors; the window is the kernel's own 64.64
fixed-point time.

* `elapsedMs_le_windowMs_iff`: the claim fits exactly if a whole millisecond lies between the
  measured time and the window.
* `honest_claim_fits_iff`: and the kernel rejects it exactly if none does.
-/

namespace Nockmark

/-- `(total_s * 1000.0).ceil().max(1.0) as u64`; the cast saturates. -/
def Tock.elapsedMs {K : Type} [Semiring K] [PartialOrder K] [FloorSemiring K] (totalS : K) :
    UInt64 :=
  UInt64.ofNat (min (max ⌈totalS * (1000 : Nat)⌉₊ 1) (2 ^ 64 - 1))

namespace Registry

open Kernel (Challenge Poke RegistryState poke softCause windowMs)
open Tock (elapsedMs)

section Field

variable {K : Type} [Field K] [LinearOrder K] [IsStrictOrderedRing K] [FloorSemiring K]

/-- The time between two instants of the kernel, in seconds. -/
def windowSeconds (K : Type) [Field K] (issuedAt now : Nat) : K := (now - issuedAt : Nat) / 2 ^ 64

/-- A whole number of milliseconds, at least one, lies between the two times. -/
def WholeMsBetween (measured window : K) : Prop :=
  ∃ ms : Nat, 1 ≤ ms ∧ measured ≤ ms / (1000 : Nat) ∧ (ms : K) / (1000 : Nat) ≤ window

theorem windowMs_eq_floor (issuedAt now : Nat) :
    windowMs issuedAt now = ⌊windowSeconds K issuedAt now * 1000⌋₊ := by
  have hcast : windowSeconds K issuedAt now * 1000 =
      (((now - issuedAt) * 1000 : Nat) : K) / (2 ^ 64 : Nat) := by
    rw [windowSeconds]
    push_cast
    ring
  rw [hcast, Nat.floor_div_eq_div]
  rfl

/-- No time within the hour is cut by the cast. -/
theorem elapsedMs_toNat {totalS : K} (h : totalS ≤ 3600) :
    (elapsedMs totalS).toNat = max ⌈totalS * 1000⌉₊ 1 := by
  have hceil : ⌈totalS * 1000⌉₊ ≤ 3600000 := by
    apply Nat.ceil_le.mpr
    push_cast
    linarith
  rw [elapsedMs, Nat.cast_ofNat, UInt64.toNat_ofNat', Nat.min_eq_left (by omega),
    Nat.mod_eq_of_lt (by omega)]

theorem windowSeconds_le {issuedAt now : Nat} (h : now ≤ issuedAt + Kernel.h1) :
    windowSeconds K issuedAt now ≤ 3600 := by
  have hle : now - issuedAt ≤ 3600 * 2 ^ 64 := by
    unfold Kernel.h1 Kernel.s1 at h
    omega
  have hcast : ((now - issuedAt : Nat) : K) ≤ 3600 * 2 ^ 64 := by exact_mod_cast hle
  rw [windowSeconds, div_le_iff₀ (by positivity)]
  exact hcast

theorem elapsedMs_le_windowMs_iff {d : K} {issuedAt now : Nat}
    (hhour : now ≤ issuedAt + Kernel.h1) (hw : d ≤ windowSeconds K issuedAt now) :
    (elapsedMs d).toNat ≤ windowMs issuedAt now ↔
      WholeMsBetween d (windowSeconds K issuedAt now) := by
  have hwpos : 0 ≤ windowSeconds K issuedAt now * 1000 := by
    rw [windowSeconds]
    positivity
  have habove : ∀ ms : Nat, ⌈d * 1000⌉₊ ≤ ms ↔ d ≤ ms / 1000 := by
    intro ms
    rw [Nat.ceil_le, le_div_iff₀ (by norm_num)]
  have hbelow : ∀ ms : Nat, ms ≤ ⌊windowSeconds K issuedAt now * 1000⌋₊ ↔
      (ms : K) / 1000 ≤ windowSeconds K issuedAt now := by
    intro ms
    rw [Nat.le_floor_iff hwpos, div_le_iff₀ (by norm_num)]
  rw [elapsedMs_toNat (hw.trans (windowSeconds_le hhour)), windowMs_eq_floor (K := K),
    WholeMsBetween, Nat.cast_ofNat]
  constructor
  · intro hle
    exact ⟨max ⌈d * 1000⌉₊ 1, le_max_right _ _, (habove _).mp (le_max_left _ _),
      (hbelow _).mp hle⟩
  · rintro ⟨ms, hone, hd, hms⟩
    exact (max_le ((habove ms).mpr hd) hone).trans ((hbelow ms).mpr hms)

/-- A claim against an unused challenge of the last hour is rejected for its time exactly if it
does not fit the window. -/
theorem rejected_iff {s : RegistryState} {p : Poke} {nonce hardware proverVersion k ms : Nat}
    {c : Challenge}
    (hp : softCause p.dat = some (.submitRun nonce hardware proverVersion k ms))
    (hc : s.challenges.lookup nonce = some c) (hu : c.used = false) (hissued : c.issuedAt ≤ p.now)
    (hhour : p.now ≤ c.issuedAt + Kernel.h1) :
    poke s p = some ([.rejected "elapsed-exceeds-window"], s) ↔
      ¬ ms ≤ windowMs c.issuedAt p.now := by
  simp only [poke, hp, hc, hu, Bool.false_eq_true, if_false, if_neg (Nat.not_lt.mpr hhour),
    if_neg (Nat.not_lt.mpr hissued)]
  split
  · rename_i hgt
    exact ⟨fun _ => Nat.not_le.mpr hgt, fun _ => rfl⟩
  · rename_i hle
    constructor
    · intro h
      simp only [Option.some.injEq, Prod.mk.injEq, List.cons.injEq, reduceCtorEq, false_and] at h
    · intro hnot
      exact absurd (Nat.not_lt.mp hle) hnot

/-- For every state, challenge and time, and every measured time within the window: the claim fits,
and is not rejected for it, if and only if a whole millisecond lies between the two. -/
theorem honest_claim_fits_iff {s : RegistryState} {p : Poke} {nonce hardware proverVersion k : Nat}
    {c : Challenge} {d : K}
    (hp : softCause p.dat =
      some (.submitRun nonce hardware proverVersion k (elapsedMs d).toNat))
    (hc : s.challenges.lookup nonce = some c) (hu : c.used = false) (hissued : c.issuedAt ≤ p.now)
    (hhour : p.now ≤ c.issuedAt + Kernel.h1) (hw : d ≤ windowSeconds K c.issuedAt p.now) :
    ((elapsedMs d).toNat ≤ windowMs c.issuedAt p.now ↔
      WholeMsBetween d (windowSeconds K c.issuedAt p.now)) ∧
    (poke s p ≠ some ([.rejected "elapsed-exceeds-window"], s) ↔
      WholeMsBetween d (windowSeconds K c.issuedAt p.now)) := by
  have hiff := elapsedMs_le_windowMs_iff hhour hw
  refine ⟨hiff, ?_⟩
  rw [Ne, rejected_iff hp hc hu hissued hhour, not_not, hiff]

end Field

/-! ### A run of a second and a half -/

/-- The challenge 7, minted at the instant 0. -/
def mintedAtZero : RegistryState := Kernel.init.mint 7 0

/-- A submission for it at an instant counted in `2^-10` seconds, with its claimed milliseconds. -/
def claimPoke (now ms : Nat) : Poke :=
  ⟨0, now * 2 ^ 54, .cell (.atom (Kernel.cord "submit-run")) (.cell (.atom 7)
    (.cell (.atom (Kernel.cord "m1-max")) (.cell (.atom (Kernel.cord "0.1.0"))
      (.cell (.atom 1) (.atom ms)))))⟩

theorem softCause_claimPoke (now : Nat) (ms : UInt64) (h : ms.toNat ≤ Kernel.directMax) :
    softCause (claimPoke now ms.toNat).dat =
      some (.submitRun 7 (Kernel.cord "m1-max") (Kernel.cord "0.1.0") 1 ms.toNat) := by
  have hD : Kernel.D ms.toNat = some (.atom ms.toNat) := if_pos h
  have hsub : Kernel.submitCause 7 "m1-max" "0.1.0" 1 ms = some (claimPoke now ms.toNat).dat := by
    rw [Kernel.submitCause, hD]
    rfl
  exact Kernel.softCause_submitCause hsub

theorem lookup_mintedAtZero : mintedAtZero.challenges.lookup 7 = some ⟨0, false⟩ :=
  Kernel.lookup_mint_self _ _ _

theorem honest_claim_fits_iff_roundedUp :
    poke mintedAtZero (claimPoke 1537 (elapsedMs (3 / 2 : ℚ)).toNat) ≠
      some ([.rejected "elapsed-exceeds-window"], mintedAtZero) := by
  have hms : elapsedMs (3 / 2 : ℚ) = 1500 := by decide +kernel
  have hp := softCause_claimPoke 1537 (elapsedMs (3 / 2 : ℚ)) (by rw [hms]; decide)
  refine (honest_claim_fits_iff hp lookup_mintedAtZero rfl (Nat.zero_le _) (by decide) ?_).2.mpr ?_
  · norm_num [windowSeconds, claimPoke]
  · exact ⟨1500, by decide, by norm_num, by norm_num [windowSeconds, claimPoke]⟩

/-- A run measured at exactly the window, 1.5009765625 seconds, claims 1501 ms of 1500. -/
theorem exact_claim_rejected :
    ¬ ∀ (s : RegistryState) (p : Poke) (nonce hardware proverVersion k : Nat) (c : Challenge)
      (d : ℚ), softCause p.dat =
        some (.submitRun nonce hardware proverVersion k (elapsedMs d).toNat) →
      s.challenges.lookup nonce = some c → c.used = false → c.issuedAt ≤ p.now →
      p.now ≤ c.issuedAt + Kernel.h1 → 0 < d → d ≤ windowSeconds ℚ c.issuedAt p.now →
      (elapsedMs d).toNat ≤ windowMs c.issuedAt p.now ∧
        poke s p ≠ some ([.rejected "elapsed-exceeds-window"], s) := by
  intro hall
  have hms : elapsedMs (1537 / 1024 : ℚ) = 1501 := by decide +kernel
  have hp := softCause_claimPoke 1537 (elapsedMs (1537 / 1024 : ℚ)) (by rw [hms]; decide)
  have hfits := (hall mintedAtZero (claimPoke 1537 (elapsedMs (1537 / 1024 : ℚ)).toNat) _ _ _ _ _ _
    hp lookup_mintedAtZero rfl (Nat.zero_le _) (by decide) (by norm_num)
    (by norm_num [windowSeconds, claimPoke])).1
  rw [hms] at hfits
  exact absurd hfits (by decide)

end Registry
end Nockmark
