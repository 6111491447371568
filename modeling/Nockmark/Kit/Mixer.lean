import Mathlib.Data.UInt
import Mathlib.Logic.Function.Basic

/-!
# Kit.Mixer

Steps of a word mixer that lose no information.

* `xorShift_injective`: a word xored with itself shifted right can be read back, its top bits
  first.
* `mul_injective`: a multiplier with an inverse can be divided out again.
* `foldl_ne`: two texts that differ in one letter leave different states, where each letter's
  step is injective in the state and each state's step in the letter.
-/

namespace Kit
namespace Mixer

open Function

/-- Bit `i` of the result is bit `i` of the word, but for bit `i + k`, which stands above it. -/
theorem bitVec_xorShift_injective {w k : Nat} (hk : 0 < k) :
    Injective fun x : BitVec w => x ^^^ (x >>> k) := by
  intro x y h
  have bit : ∀ i, (x.getLsbD i ^^ x.getLsbD (k + i)) = (y.getLsbD i ^^ y.getLsbD (k + i)) := by
    intro i
    have hi := congrArg (fun z => z.getLsbD i) h
    simpa only [BitVec.getLsbD_xor, BitVec.getLsbD_ushiftRight] using hi
  -- from the top down: no more than `m` bits stand from `i` up to the width
  have down : ∀ m i, w ≤ m + i → x.getLsbD i = y.getLsbD i := by
    intro m
    induction m with
    | zero =>
      intro i hi
      rw [BitVec.getLsbD_of_ge x i (by omega), BitVec.getLsbD_of_ge y i (by omega)]
    | succ m ih =>
      intro i hi
      have habove := ih (k + i) (by omega)
      have hbit := bit i
      rw [habove] at hbit
      exact Bool.xor_left_inj.mp hbit
  exact BitVec.eq_of_getLsbD_eq fun i _ => down w i (by omega)

theorem xorShift_injective {k : UInt64} (hk : 0 < k.toNat % 64) :
    Injective fun x : UInt64 => x ^^^ (x >>> k) := by
  intro x y h
  apply UInt64.toBitVec_inj.mp
  apply bitVec_xorShift_injective hk
  have hb := congrArg UInt64.toBitVec h
  simpa [UInt64.toBitVec_shiftRight] using hb

theorem mul_injective {c d : UInt64} (h : c * d = 1) : Injective fun x : UInt64 => x * c := by
  intro x y hxy
  have hd := congrArg (fun z => z * d) hxy
  simpa only [UInt64.mul_assoc, h, UInt64.mul_one] using hd

theorem xor_injective (m : UInt64) : Injective fun x : UInt64 => x ^^^ m :=
  fun _ _ h => (UInt64.xor_left_inj m).mp h

theorem add_injective (m : UInt64) : Injective fun x : UInt64 => x + m :=
  fun _ _ h => (UInt64.add_left_inj m).mp h

section Fold

variable {σ β : Type*} {f : σ → β → σ}

theorem foldl_injective (hf : ∀ b, Injective fun s => f s b) (bs : List β) :
    Injective fun s => bs.foldl f s := by
  induction bs with
  | nil => exact fun _ _ h => h
  | cons b bs ih => exact ih.comp (hf b)

theorem foldl_ne (hs : ∀ b, Injective fun s => f s b) (hb : ∀ s, Injective (f s)) {b c : β}
    (hne : b ≠ c) (pre post : List β) (s : σ) :
    (pre ++ b :: post).foldl f s ≠ (pre ++ c :: post).foldl f s := by
  intro h
  simp only [List.foldl_append, List.foldl_cons] at h
  exact hne (hb _ (foldl_injective hs post h))

end Fold

end Mixer
end Kit
