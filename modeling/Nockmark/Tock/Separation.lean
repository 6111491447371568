import Mathlib.Tactic.IntervalCases
import Nockmark.Kit.Decimal
import Nockmark.Kit.Mixer
import Nockmark.Tock.Nonce

/-!
# Tock.Separation

The seed rule keeps the proofs of one challenge apart. Proof `index` is bound to the belts of
`challenge/index`; for one-digit indices those seeds differ in their last byte alone.

* `fnvStep_injective`, `mix_injective`: neither the hash's step nor the finaliser loses anything.
* `splitmix64_ne`: streams that start from two states differ at every position.
* `belts_eq`: if two indices yet have the same belts, all of these are below `2^32 - 1`.
* `indices_separated`: what sets two one-digit indices apart, whatever the challenge.
-/

namespace Nockmark
namespace Tock

open Function

/-- The hash's step: xor the byte in, then multiply. -/
def fnvStep (h : UInt64) (b : UInt8) : UInt64 := (h ^^^ b.toUInt64) * 0x100000001b3

/-- The state that `seedToBelts` starts its stream from. -/
def seedState (seed domain : String) : UInt64 :=
  fnv1a (Kit.Utf8.encode (domain.toList ++ seed.toList))

theorem fnv1a_eq (bytes : List UInt8) : fnv1a bytes = bytes.foldl fnvStep 0xcbf29ce484222325 := rfl

theorem seedToBelts_eq (seed domain : String) :
    seedToBelts seed domain = (splitmix64 5 (seedState seed domain)).map (· % prime) := rfl

/-- The multiplier is odd: `0xce965057aff6957b` undoes it. -/
theorem fnvStep_injective (b : UInt8) : Injective fun h => fnvStep h b :=
  (Kit.Mixer.mul_injective (d := 0xce965057aff6957b) (by decide)).comp
    (Kit.Mixer.xor_injective b.toUInt64)

theorem fnvStep_byte_injective (h : UInt64) : Injective (fnvStep h) := by
  intro b c heq
  have hx := Kit.Mixer.mul_injective (d := 0xce965057aff6957b) (by decide) heq
  have hbc := (UInt64.xor_right_inj h).mp hx
  exact UInt8.toUInt64_inj.mp hbc

theorem mix_injective : Injective mix := by
  have h1 := Kit.Mixer.xorShift_injective (k := 30) (by decide)
  have h2 := Kit.Mixer.mul_injective (c := 0xbf58476d1ce4e5b9) (d := 0x96de1b173f119089) (by decide)
  have h3 := Kit.Mixer.xorShift_injective (k := 27) (by decide)
  have h4 := Kit.Mixer.mul_injective (c := 0x94d049bb133111eb) (d := 0x319642b2d24d8ec3) (by decide)
  have h5 := Kit.Mixer.xorShift_injective (k := 31) (by decide)
  exact h5.comp (h4.comp (h3.comp (h2.comp h1)))

theorem length_splitmix64 (n : Nat) (h : UInt64) : (splitmix64 n h).length = n := by
  induction n generalizing h with
  | zero => rfl
  | succ n ih => simp [splitmix64, ih]

/-- Two states stay apart from step to step, and so do the words read off them. -/
theorem splitmix64_ne {n p : Nat} {g h : UInt64} (hne : g ≠ h) (hp : p < n) :
    (splitmix64 n g)[p]? ≠ (splitmix64 n h)[p]? := by
  induction n generalizing p g h with
  | zero => omega
  | succ n ih =>
    have hnext : g + 0x9e3779b97f4a7c15 ≠ h + 0x9e3779b97f4a7c15 :=
      (Kit.Mixer.add_injective _).ne hne
    cases p with
    | zero => simpa [splitmix64] using mix_injective.ne hnext
    | succ p => simpa [splitmix64] using ih hnext (Nat.lt_of_succ_lt_succ hp)

/-- Seeds that differ in one byte. -/
theorem fnv1a_ne {b c : UInt8} (hne : b ≠ c) (pre post : List UInt8) :
    fnv1a (pre ++ b :: post) ≠ fnv1a (pre ++ c :: post) := by
  rw [fnv1a_eq, fnv1a_eq]
  exact Kit.Mixer.foldl_ne fnvStep_injective fnvStep_byte_injective hne pre post _

theorem encode_dec_digit {i : Nat} (hi : i < 10) :
    Kit.Utf8.encode (Kit.dec i).toList = [48 + i.toUInt8] := by
  interval_cases i <;> decide

/-- The seed of proof `index` ends in the index's digit. -/
theorem seedState_index (challenge : String) {i : Nat} (hi : i < 10) :
    seedState (challenge ++ "/" ++ Kit.dec i) "nonce" =
      fnv1a (Kit.Utf8.encode ("nonce".toList ++ challenge.toList ++ ['/']) ++
        [48 + i.toUInt8]) := by
  rw [seedState, ← encode_dec_digit hi, ← Kit.Utf8.encode_append]
  simp

/-- The digits differ as bytes. -/
theorem digit_ne {i j : Nat} (hi : i < 10) (hj : j < 10) (hij : i ≠ j) :
    (48 + i.toUInt8 : UInt8) ≠ 48 + j.toUInt8 := by
  intro h
  have hnat : i.toUInt8.toNat = j.toUInt8.toNat :=
    congrArg UInt8.toNat ((UInt8.add_right_inj 48).mp h)
  simp only [Nat.toUInt8, UInt8.toNat_ofNat'] at hnat
  omega

theorem seedState_ne (challenge : String) {i j : Nat} (hi : i < 10) (hj : j < 10) (hij : i ≠ j) :
    seedState (challenge ++ "/" ++ Kit.dec i) "nonce" ≠
      seedState (challenge ++ "/" ++ Kit.dec j) "nonce" := by
  rw [seedState_index challenge hi, seedState_index challenge hj]
  exact fnv1a_ne (digit_ne hi hj hij) _ []

/-- Only the words below `2^32 - 1` share their residue with another word. -/
theorem mod_prime_eq {x y : UInt64} (hne : x ≠ y) (h : x % prime = y % prime) :
    x.toNat < 2 ^ 32 - 1 ∧ y.toNat = x.toNat + prime.toNat ∨
      y.toNat < 2 ^ 32 - 1 ∧ x.toNat = y.toNat + prime.toNat := by
  have hnat : x.toNat % prime.toNat = y.toNat % prime.toNat := by
    simpa only [UInt64.toNat_mod] using congrArg UInt64.toNat h
  have hprime : prime.toNat = 18446744069414584321 := rfl
  have hxy : x.toNat ≠ y.toNat := fun e => hne (UInt64.toNat_inj.mp e)
  have hx := x.toNat_lt
  have hy := y.toNat_lt
  rw [hprime] at hnat ⊢
  omega

/-- What is left for one proof to stand for two indices: all five of its belts would have to come
from the `2^32 - 1` words that have a twin. -/
theorem belts_eq (challenge : String) {i j : Nat} (hi : i < 10) (hj : j < 10) (hij : i ≠ j)
    (h : seedToBelts (challenge ++ "/" ++ Kit.dec i) "nonce" =
      seedToBelts (challenge ++ "/" ++ Kit.dec j) "nonce") :
    ∀ b ∈ seedToBelts (challenge ++ "/" ++ Kit.dec i) "nonce", b.toNat < 2 ^ 32 - 1 := by
  intro b hb
  obtain ⟨p, hi'⟩ := List.mem_iff_getElem?.mp hb
  have hj' := hi'
  rw [h] at hj'
  simp only [seedToBelts_eq, List.getElem?_map, Option.map_eq_some_iff] at hi' hj'
  obtain ⟨x, hx, rfl⟩ := hi'
  obtain ⟨y, hy, hyx⟩ := hj'
  have hp : p < 5 := by
    have := (List.getElem?_eq_some_iff.mp hx).1
    rwa [length_splitmix64] at this
  have hne : x ≠ y := by
    rintro rfl
    exact splitmix64_ne (seedState_ne challenge hi hj hij) hp (hx.trans hy.symm)
  -- the smaller of the two words is the belt
  rcases mod_prime_eq hne hyx.symm with ⟨hlt, -⟩ | ⟨hlt, -⟩
  · exact lt_of_le_of_lt (Nat.mod_le _ _) hlt
  · rw [← hyx]
    exact lt_of_le_of_lt (Nat.mod_le _ _) hlt

/-- For every challenge and two one-digit indices: hash states and stream words differ, as neither
step loses anything, and the belts that are reduced from them could agree in small values only. -/
theorem indices_separated (challenge : String) {i j : Nat} (hi : i < 10) (hj : j < 10)
    (hij : i ≠ j) :
    (∀ b, Injective fun h => fnvStep h b) ∧ Injective mix ∧
    seedState (challenge ++ "/" ++ Kit.dec i) "nonce" ≠
      seedState (challenge ++ "/" ++ Kit.dec j) "nonce" ∧
    (∀ p < 5, (splitmix64 5 (seedState (challenge ++ "/" ++ Kit.dec i) "nonce"))[p]? ≠
      (splitmix64 5 (seedState (challenge ++ "/" ++ Kit.dec j) "nonce"))[p]?) ∧
    (seedToBelts (challenge ++ "/" ++ Kit.dec i) "nonce" =
        seedToBelts (challenge ++ "/" ++ Kit.dec j) "nonce" →
      ∀ b ∈ seedToBelts (challenge ++ "/" ++ Kit.dec i) "nonce", b.toNat < 2 ^ 32 - 1) :=
  ⟨fnvStep_injective, mix_injective, seedState_ne challenge hi hj hij,
    fun _ hp => splitmix64_ne (seedState_ne challenge hi hj hij) hp,
    belts_eq challenge hi hj hij⟩

/-- The first and the last proof of the default challenge size. -/
theorem indices_separated_ends :
    seedState ("12345" ++ "/" ++ Kit.dec 0) "nonce" ≠
      seedState ("12345" ++ "/" ++ Kit.dec 7) "nonce" ∧
    ∀ p < 5, (splitmix64 5 (seedState ("12345" ++ "/" ++ Kit.dec 0) "nonce"))[p]? ≠
      (splitmix64 5 (seedState ("12345" ++ "/" ++ Kit.dec 7) "nonce"))[p]? := by
  obtain ⟨-, -, hstate, hwords, -⟩ :=
    indices_separated "12345" (i := 0) (j := 7) (by decide) (by decide) (by decide)
  exact ⟨hstate, hwords⟩

end Tock
end Nockmark
