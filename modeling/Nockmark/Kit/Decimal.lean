import Mathlib.Data.List.Basic

/-!
# Kit.Decimal

Decimal numerals below a bound, read the way a checked integer parser reads them: an optional
plus sign, at least one digit, leading zeros allowed, and an error at the first bad character or
at the first overflow, whichever stands first.

* `dec n` is the numeral a number prints as.
* `parseUInt_dec`: a numeral in range reads back.
* `eq_dec_iff_canonical`: among the texts read as `n`, `dec n` is the one without a sign and
  without superfluous zeros.
-/

namespace Kit

inductive IntErrorKind where
  | Empty
  | InvalidDigit
  | PosOverflow
  deriving DecidableEq, Repr

def IntErrorKind.message : IntErrorKind → String
  | .Empty => "cannot parse integer from empty string"
  | .InvalidDigit => "invalid digit found in string"
  | .PosOverflow => "number too large to fit in target type"

def dec (n : Nat) : String := n.repr

def digitVal (c : Char) : Nat := c.toNat - '0'.toNat

/-- The digit loop, from the value read so far. -/
def parseDigits (bound : Nat) : List Char → Nat → Except IntErrorKind Nat
  | [], acc => .ok acc
  | c :: cs, acc =>
    if c.isDigit then
      if 10 * acc + digitVal c < bound then parseDigits bound cs (10 * acc + digitVal c)
      else .error .PosOverflow
    else .error .InvalidDigit

def parseUInt (bound : Nat) (s : String) : Except IntErrorKind Nat :=
  match s.toList with
  | [] => .error .Empty
  | ['+'] => .error .InvalidDigit
  | '+' :: cs => parseDigits bound cs 0
  | cs => parseDigits bound cs 0

theorem parseDigits_ok {bound n : Nat} {cs : List Char} {acc : Nat}
    (h : parseDigits bound cs acc = .ok n) :
    (∀ c ∈ cs, c.isDigit = true) ∧ n = Nat.ofDigitChars 10 cs acc := by
  induction cs generalizing acc with
  | nil => simp only [parseDigits] at h; cases h; simp
  | cons c cs ih =>
    simp only [parseDigits] at h
    split at h
    · rename_i hc
      split at h
      · obtain ⟨h1, h2⟩ := ih h
        refine ⟨?_, by rw [h2, Nat.ofDigitChars_cons]; rfl⟩
        intro d hd
        rcases List.mem_cons.mp hd with rfl | hd
        · exact hc
        · exact h1 d hd
      · cases h
    · cases h

theorem parseDigits_lt {bound n : Nat} {cs : List Char} {acc : Nat} (ha : acc < bound)
    (h : parseDigits bound cs acc = .ok n) : n < bound := by
  induction cs generalizing acc with
  | nil => simp only [parseDigits] at h; cases h; exact ha
  | cons c cs ih =>
    simp only [parseDigits] at h
    split at h
    · split at h
      · rename_i hlt; exact ih hlt h
      · cases h
    · cases h

theorem le_ofDigitChars (cs : List Char) (acc : Nat) : acc ≤ Nat.ofDigitChars 10 cs acc := by
  induction cs generalizing acc with
  | nil => simp
  | cons c cs ih =>
    rw [Nat.ofDigitChars_cons]
    have := ih (10 * acc + (c.toNat - '0'.toNat))
    omega

/-- Digits whose value is in range are accepted. -/
theorem parseDigits_of_digits {bound : Nat} {cs : List Char} {acc : Nat}
    (hd : ∀ c ∈ cs, c.isDigit = true) (h : Nat.ofDigitChars 10 cs acc < bound) :
    parseDigits bound cs acc = .ok (Nat.ofDigitChars 10 cs acc) := by
  induction cs generalizing acc with
  | nil => simp [parseDigits]
  | cons c cs ih =>
    rw [Nat.ofDigitChars_cons] at h ⊢
    have hle := le_ofDigitChars cs (10 * acc + (c.toNat - '0'.toNat))
    have hlt : 10 * acc + digitVal c < bound := Nat.lt_of_le_of_lt hle h
    rw [parseDigits, if_pos (hd c (by simp)), if_pos hlt]
    exact ih (fun d hd' => hd d (by simp [hd'])) h

theorem dec_toList (n : Nat) : (dec n).toList = Nat.toDigits 10 n := Nat.toList_repr

theorem dec_digits (n : Nat) : ∀ c ∈ (dec n).toList, c.isDigit = true := by
  intro c hc
  rw [dec_toList] at hc
  exact Nat.isDigit_of_mem_toDigits (by omega) (by omega) hc

/-- The parser reads a nonempty run of digits as its value. -/
theorem parseUInt_of_digits {bound : Nat} {s : String} (hne : s.toList ≠ [])
    (hd : ∀ c ∈ s.toList, c.isDigit = true) (h : Nat.ofDigitChars 10 s.toList 0 < bound) :
    parseUInt bound s = .ok (Nat.ofDigitChars 10 s.toList 0) := by
  unfold parseUInt
  split
  · rename_i he; exact absurd he hne
  · rename_i he; rw [he] at hd; exact absurd (hd '+' (by simp)) (by simp)
  · rename_i he; rw [he] at hd; exact absurd (hd '+' (by simp)) (by simp)
  · exact parseDigits_of_digits hd h

theorem parseUInt_dec {bound n : Nat} (h : n < bound) : parseUInt bound (dec n) = .ok n := by
  have hv : Nat.ofDigitChars 10 (dec n).toList 0 = n := by
    rw [dec_toList, Nat.ofDigitChars_ten_toDigits]
  have hne : (dec n).toList ≠ [] := by rw [dec_toList]; exact Nat.toDigits_ne_nil
  have hp := @parseUInt_of_digits bound (dec n) hne (dec_digits n) (by rw [hv]; exact h)
  rwa [hv] at hp

theorem parseUInt_lt {bound n : Nat} {s : String} (h : parseUInt bound s = .ok n) :
    n < bound := by
  by_cases hb : 0 < bound
  · unfold parseUInt at h
    split at h
    · cases h
    · cases h
    · exact parseDigits_lt hb h
    · exact parseDigits_lt hb h
  · -- with no value in range, every digit overflows
    obtain rfl : bound = 0 := by omega
    have hnone : ∀ cs : List Char, cs ≠ [] → parseDigits 0 cs 0 ≠ .ok n := by
      intro cs hne
      cases cs with
      | nil => exact absurd rfl hne
      | cons c cs => simp only [parseDigits]; split <;> simp
    unfold parseUInt at h
    split at h
    · cases h
    · cases h
    · rename_i hne _; exact absurd h (hnone _ (by simpa using hne))
    · rename_i hne _ _; exact absurd h (hnone _ hne)

/-! ## Canonical numerals -/

/-- No sign, and no leading zero other than the numeral `0`. -/
def CanonicalNumeral (s : String) : Prop :=
  s.toList.head? ≠ some '+' ∧ (s.toList.head? = some '0' → s.toList.length = 1)

instance (s : String) : Decidable (CanonicalNumeral s) := by
  unfold CanonicalNumeral; infer_instance

theorem digitChar_digitVal {c : Char} (h : c.isDigit = true) :
    digitVal c < 10 ∧ Nat.digitChar (digitVal c) = c := by
  have hr : 48 ≤ c.toNat ∧ c.toNat ≤ 57 := by
    simp only [Char.isDigit, Bool.and_eq_true, decide_eq_true_eq] at h
    exact ⟨UInt32.le_iff_toNat_le.mp h.1, UInt32.le_iff_toNat_le.mp h.2⟩
  have hlt : digitVal c < 10 := by simp only [digitVal, Char.reduceToNat]; omega
  refine ⟨hlt, ?_⟩
  have hall : ∀ d < 10, (Nat.digitChar d).toNat = 48 + d := by decide
  have ht : (Nat.digitChar (digitVal c)).toNat = c.toNat := by
    rw [hall _ hlt]; simp only [digitVal, Char.reduceToNat]; omega
  rw [← Char.ofNat_toNat (Nat.digitChar (digitVal c)), ht, Char.ofNat_toNat]

/-- Reading digits after a nonzero value continues its numeral. -/
theorem toDigits_ofDigitChars {cs : List Char} {acc : Nat} (ha : 0 < acc)
    (hd : ∀ c ∈ cs, c.isDigit = true) :
    Nat.toDigits 10 (Nat.ofDigitChars 10 cs acc) = Nat.toDigits 10 acc ++ cs := by
  induction cs generalizing acc with
  | nil => simp
  | cons c cs ih =>
    obtain ⟨hlt, hc⟩ := digitChar_digitVal (hd c (by simp))
    have hstep := Nat.toDigits_append_toDigits (b := 10) (by omega) ha hlt
    rw [Nat.toDigits_of_lt_base hlt, hc] at hstep
    calc Nat.toDigits 10 (Nat.ofDigitChars 10 (c :: cs) acc)
        = Nat.toDigits 10 (Nat.ofDigitChars 10 cs (10 * acc + digitVal c)) := by
          rw [Nat.ofDigitChars_cons]; rfl
      _ = Nat.toDigits 10 (10 * acc + digitVal c) ++ cs :=
          ih (by omega) fun d h => hd d (by simp [h])
      _ = Nat.toDigits 10 acc ++ c :: cs := by rw [← hstep, List.append_assoc]; rfl

theorem canonicalNumeral_dec (n : Nat) : CanonicalNumeral (dec n) := by
  rw [CanonicalNumeral, dec_toList]
  constructor
  · intro h
    have hmem := List.mem_of_mem_head? h
    exact absurd (dec_digits n '+' (by rwa [dec_toList])) (by simp)
  · induction n using Nat.strongRecOn with
    | ind n ih =>
      intro h
      by_cases hn : n < 10
      · rw [Nat.toDigits_of_lt_base hn]; rfl
      · exfalso
        rw [Nat.toDigits_of_base_le (by omega) (by omega),
          List.head?_append_of_ne_nil _ Nat.toDigits_ne_nil] at h
        obtain ⟨a, ha⟩ := List.length_eq_one_iff.mp (ih (n / 10) (by omega) h)
        have hv := Nat.ofDigitChars_ten_toDigits (n := n / 10)
        rw [ha] at h hv
        cases Option.some.inj h
        have hz : Nat.ofDigitChars 10 ['0'] 0 = 0 := rfl
        rw [hz] at hv
        omega

/-- Of the texts that read as `n`, the canonical one is `dec n`. -/
theorem eq_dec_iff_canonical {bound n : Nat} {s : String} (h : parseUInt bound s = .ok n) :
    s = dec n ↔ CanonicalNumeral s := by
  constructor
  · rintro rfl; exact canonicalNumeral_dec n
  · rintro ⟨hplus, hzero⟩
    unfold parseUInt at h
    split at h
    · cases h
    · cases h
    · rename_i he; exact absurd (by rw [he]; rfl) hplus
    · obtain ⟨hd, hn⟩ := parseDigits_ok h
      apply String.toList_inj.mp
      rw [dec_toList]
      cases hs : s.toList with
      | nil => rename_i hne _ _; exact absurd hs hne
      | cons c cs =>
        rw [hs] at hd hn hzero
        obtain ⟨hlt, hc⟩ := digitChar_digitVal (hd c (by simp))
        have hd' : ∀ d ∈ cs, d.isDigit = true := fun d h => hd d (by simp [h])
        rw [Nat.ofDigitChars_cons, Nat.mul_zero, Nat.zero_add] at hn
        by_cases h0 : digitVal c = 0
        · have hc0 : c = '0' := by rw [← hc, h0]; rfl
          have hcs : cs = [] := by simpa using hzero (by rw [hc0]; rfl)
          subst hcs
          rw [hn, Nat.ofDigitChars_nil]
          show [c] = Nat.toDigits 10 (digitVal c)
          rw [Nat.toDigits_of_lt_base hlt, hc]
        · rw [hn]
          have := toDigits_ofDigitChars (by omega : 0 < digitVal c) hd'
          rw [Nat.toDigits_of_lt_base hlt, hc] at this
          exact this.symm

end Kit
