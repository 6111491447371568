import Mathlib.Data.Nat.Digits.Defs
import Mathlib.Tactic.Ring

/-!
# Kit.Bytes

Little-endian numbers and byte arrays of a fixed length.

* `leNat bs` is the number that bytes spell, `leBytes w n` the `w` bytes of a number.
* `Block n` is a byte array of length `n`; a `Block` and its number determine each other
  (`Block.toNat_injective`).
-/

namespace Kit

/-- A property of all bytes, checked one by one. -/
theorem byte_forall {P : UInt8 → Prop} (h : ∀ n < 256, P (UInt8.ofNat n)) (b : UInt8) : P b := by
  have := h b.toNat b.toNat_lt
  rwa [UInt8.ofNat_toNat] at this

def leNat : List UInt8 → Nat
  | [] => 0
  | b :: bs => b.toNat + 256 * leNat bs

def leBytes : Nat → Nat → List UInt8
  | 0, _ => []
  | w + 1, n => UInt8.ofNat n :: leBytes w (n / 256)

@[simp] theorem length_leBytes (w n : Nat) : (leBytes w n).length = w := by
  induction w generalizing n with
  | zero => rfl
  | succ w ih => rw [leBytes, List.length_cons, ih]

theorem leNat_lt (bs : List UInt8) : leNat bs < 256 ^ bs.length := by
  induction bs with
  | nil => simp [leNat]
  | cons b bs ih =>
    have hb := b.toNat_lt
    rw [leNat, List.length_cons, pow_succ]
    omega

theorem leNat_leBytes {w n : Nat} (h : n < 256 ^ w) : leNat (leBytes w n) = n := by
  induction w generalizing n with
  | zero => simp only [pow_zero, Nat.lt_one_iff] at h; rw [h]; rfl
  | succ w ih =>
    have hq : n / 256 < 256 ^ w := by
      rw [Nat.div_lt_iff_lt_mul (by omega), ← pow_succ]; exact h
    rw [leBytes, leNat, ih hq, UInt8.toNat_ofNat']
    omega

theorem leBytes_leNat (bs : List UInt8) : leBytes bs.length (leNat bs) = bs := by
  induction bs with
  | nil => rfl
  | cons b bs ih =>
    have hb := b.toNat_lt
    have hd : (b.toNat + 256 * leNat bs) / 256 = leNat bs := by omega
    have hm : UInt8.ofNat (b.toNat + 256 * leNat bs) = b := by
      apply UInt8.toNat_inj.mp
      rw [UInt8.toNat_ofNat']
      omega
    rw [List.length_cons, leBytes, leNat, hd, hm, ih]

theorem leNat_append (bs cs : List UInt8) :
    leNat (bs ++ cs) = leNat bs + 256 ^ bs.length * leNat cs := by
  induction bs with
  | nil => simp [leNat]
  | cons b bs ih => rw [List.cons_append, leNat, leNat, ih, List.length_cons, pow_succ]; ring

theorem leNat_replicate_zero (n : Nat) : leNat (List.replicate n 0) = 0 := by
  induction n with
  | zero => rfl
  | succ n ih => rw [List.replicate_succ, leNat, ih]; rfl

/-- A byte array of length `n`. -/
structure Block (n : Nat) where
  toList : List UInt8
  length_eq : toList.length = n
  deriving DecidableEq

namespace Block

variable {n : Nat}

theorem ext {a b : Block n} (h : a.toList = b.toList) : a = b := by
  cases a; cases b; cases h; rfl

def ofList (l : List UInt8) (h : l.length = n) : Block n := ⟨l, h⟩

def toNat (b : Block n) : Nat := leNat b.toList

def ofNat (n v : Nat) : Block n := ⟨leBytes n v, length_leBytes n v⟩

def fill (n : Nat) (b : UInt8) : Block n := ⟨List.replicate n b, List.length_replicate⟩

theorem toNat_lt (b : Block n) : b.toNat < 256 ^ n := by
  have h := leNat_lt b.toList
  rwa [b.length_eq] at h

theorem toNat_ofNat {v : Nat} (h : v < 256 ^ n) : (ofNat n v).toNat = v := leNat_leBytes h

theorem toNat_injective : Function.Injective (toNat : Block n → Nat) := by
  intro a b h
  apply ext
  have ha := leBytes_leNat a.toList
  have hb := leBytes_leNat b.toList
  rw [a.length_eq] at ha
  rw [b.length_eq] at hb
  rw [← ha, ← hb]
  exact congrArg (leBytes n) h

end Block
end Kit
