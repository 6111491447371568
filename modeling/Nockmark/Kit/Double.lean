import Nockmark.Kit.Round

/-!
# Kit.Double

Double arithmetic that may leave the doubles. An operation rounds to 53 bits; it is `none` where
the result is infinite, undefined, or too small to be normal.

* `Within a b x`: `x` lies between two powers of two. Rounding keeps it there, and products and
  quotients add and subtract the bounds.
* `mul_within`, `div_within`: so a chain of operations is followed by adding exponents.
-/

namespace Kit
namespace Double

open Round

/-! ### Orders of magnitude -/

def Within (a b : ℤ) (x : ℚ) : Prop := (2 : ℚ) ^ a ≤ x ∧ x ≤ (2 : ℚ) ^ b

theorem Within.pos {a b : ℤ} {x : ℚ} (h : Within a b x) : 0 < x :=
  lt_of_lt_of_le (zpow_pos (by norm_num) a) h.1

theorem within_zpow (a : ℤ) : Within a a ((2 : ℚ) ^ a) := ⟨le_refl _, le_refl _⟩

theorem Within.mono {a b c d : ℤ} {x : ℚ} (h : Within a b x) (hc : c ≤ a) (hd : b ≤ d) :
    Within c d x :=
  ⟨le_trans (zpow_le_zpow_right₀ (by norm_num) hc) h.1,
    le_trans h.2 (zpow_le_zpow_right₀ (by norm_num) hd)⟩

theorem Within.mul {a b c d : ℤ} {x y : ℚ} (hx : Within a b x) (hy : Within c d y) :
    Within (a + c) (b + d) (x * y) := by
  have h2 : (2 : ℚ) ≠ 0 := by norm_num
  constructor
  · rw [zpow_add₀ h2]
    exact mul_le_mul hx.1 hy.1 (le_of_lt (zpow_pos (by norm_num) c)) (le_of_lt hx.pos)
  · rw [zpow_add₀ h2]
    exact mul_le_mul hx.2 hy.2 (le_of_lt hy.pos) (le_of_lt (zpow_pos (by norm_num) b))

theorem Within.inv {a b : ℤ} {x : ℚ} (h : Within a b x) : Within (-b) (-a) x⁻¹ := by
  constructor
  · rw [zpow_neg]
    exact inv_anti₀ h.pos h.2
  · rw [zpow_neg]
    exact inv_anti₀ (zpow_pos (by norm_num) a) h.1

theorem Within.div {a b c d : ℤ} {x y : ℚ} (hx : Within a b x) (hy : Within c d y) :
    Within (a - d) (b - c) (x / y) := by
  have h := hx.mul hy.inv
  rwa [← sub_eq_add_neg, ← sub_eq_add_neg, ← div_eq_mul_inv] at h

/-! ### Rounding -/

theorem le_roundEven {n : ℤ} {x : ℚ} (h : (n : ℚ) ≤ x) : n ≤ roundEven x := by
  have hn : n ≤ ⌊x⌋ := Int.le_floor.mpr h
  unfold roundEven
  split_ifs <;> omega

theorem roundEven_le {n : ℤ} {x : ℚ} (h : x ≤ n) : roundEven x ≤ n := by
  have hfloor : ⌊x⌋ ≤ n := by
    have := Int.floor_le_floor h
    rwa [Int.floor_intCast] at this
  -- rounding up is of a number that is no integer
  have hup : 1 / 2 ≤ Int.fract x → ⌊x⌋ + 1 ≤ n := by
    intro hf
    have hlt : (⌊x⌋ : ℚ) < n := by
      have := Int.floor_add_fract x
      linarith
    exact_mod_cast hlt
  unfold roundEven
  split_ifs with h1 h2
  · exact hfloor
  · exact hup (le_of_lt h2)
  · exact hfloor
  · exact hup (not_lt.mp h1)

/-- In its own binade a number stays between the powers of two. -/
theorem within_binary64_log {x : ℚ} (hx : 0 < x) :
    Within (Int.log 2 x) (Int.log 2 x + 1) (binary64 x) := by
  have h2 : (2 : ℚ) ≠ 0 := by norm_num
  have hlog : Int.log 2 |x| = Int.log 2 x := by rw [abs_of_pos hx]
  have hu : 0 < ulp x := zpow_pos (by norm_num) _
  have low : (2 : ℚ) ^ Int.log 2 x = ((2 ^ 52 : ℤ) : ℚ) * ulp x := by
    rw [ulp, hlog, zpow_sub₀ h2]
    norm_num
    field_simp
  have high : (2 : ℚ) ^ (Int.log 2 x + 1) = ((2 ^ 53 : ℤ) : ℚ) * ulp x := by
    rw [zpow_add_one₀ h2, low]
    push_cast
    ring
  have h1 : (2 : ℚ) ^ Int.log 2 x ≤ x := by
    have := Int.zpow_log_le_self (b := 2) (by norm_num) hx
    exact_mod_cast this
  have h3 : x ≤ (2 : ℚ) ^ (Int.log 2 x + 1) := by
    have := Int.lt_zpow_succ_log_self (b := 2) (by norm_num) x
    exact_mod_cast le_of_lt this
  have hlo : (2 ^ 52 : ℤ) ≤ roundEven (x / ulp x) :=
    le_roundEven (by rw [le_div_iff₀ hu, ← low]; exact h1)
  have hhi : roundEven (x / ulp x) ≤ (2 ^ 53 : ℤ) :=
    roundEven_le (by rw [div_le_iff₀ hu, ← high]; exact h3)
  rw [Within, low, high, binary64, if_neg (ne_of_gt hx)]
  constructor
  · exact mul_le_mul_of_nonneg_right (by exact_mod_cast hlo) (le_of_lt hu)
  · exact mul_le_mul_of_nonneg_right (by exact_mod_cast hhi) (le_of_lt hu)

theorem Within.binary64 {a b : ℤ} {x : ℚ} (h : Within a b x) : Within a b (binary64 x) := by
  rcases h.2.eq_or_lt with heq | hlt
  · rw [heq, binary64_zpow]
    exact ⟨heq ▸ h.1, le_refl _⟩
  · have ha : a ≤ Int.log 2 x := by
      apply (Int.zpow_le_iff_le_log (by norm_num) h.pos).mp
      exact_mod_cast h.1
    have hb : Int.log 2 x < b := by
      apply (Int.lt_zpow_iff_log_lt (by norm_num) h.pos).mp
      exact_mod_cast hlt
    exact (within_binary64_log h.pos).mono ha hb

theorem binary64_le_zpow {b : ℤ} {x : ℚ} (h0 : 0 ≤ x) (h : x ≤ (2 : ℚ) ^ b) :
    0 ≤ Round.binary64 x ∧ Round.binary64 x ≤ (2 : ℚ) ^ b := by
  rcases h0.eq_or_lt with rfl | hpos
  · rw [binary64_zero]
    exact ⟨le_refl _, h⟩
  · have hlog : (2 : ℚ) ^ Int.log 2 x ≤ x := by
      have := Int.zpow_log_le_self (b := 2) (by norm_num) hpos
      exact_mod_cast this
    have hw := Within.binary64 ⟨hlog, h⟩
    exact ⟨le_of_lt hw.pos, hw.2⟩

/-! ### Operations -/

/-- The double next to `x`. -/
def round (x : ℚ) : Option ℚ :=
  let y := Round.binary64 x
  if y = 0 ∨ (2 : ℚ) ^ (-1022 : ℤ) ≤ |y| ∧ |y| < (2 : ℚ) ^ (1024 : ℤ) then some y else none

def mul (x y : ℚ) : Option ℚ := round (x * y)

def div (x y : ℚ) : Option ℚ := if y = 0 then none else round (x / y)

theorem round_within {a b : ℤ} {x : ℚ} (h : Within a b x) (ha : -1022 ≤ a) (hb : b < 1024) :
    ∃ y, round x = some y ∧ Within a b y := by
  have hy := h.binary64
  refine ⟨_, if_pos (.inr ?_), hy⟩
  rw [abs_of_pos hy.pos]
  exact ⟨(hy.mono ha (le_refl b)).1,
    lt_of_le_of_lt hy.2 (zpow_lt_zpow_right₀ (by norm_num) hb)⟩

theorem mul_within {a b c d : ℤ} {x y : ℚ} (hx : Within a b x) (hy : Within c d y)
    (hlo : -1022 ≤ a + c) (hhi : b + d < 1024) :
    ∃ z, mul x y = some z ∧ Within (a + c) (b + d) z :=
  round_within (hx.mul hy) hlo hhi

theorem div_within {a b c d : ℤ} {x y : ℚ} (hx : Within a b x) (hy : Within c d y)
    (hlo : -1022 ≤ a - d) (hhi : b - c < 1024) :
    ∃ z, div x y = some z ∧ Within (a - d) (b - c) z := by
  rw [div, if_neg (ne_of_gt hy.pos)]
  exact round_within (hx.div hy) hlo hhi

/-- A count of 64 bits. -/
theorem within_natCast {n : ℕ} (h1 : 1 ≤ n) (h64 : n < 2 ^ 64) : Within 0 64 (n : ℚ) := by
  constructor
  · rw [zpow_zero]
    exact_mod_cast h1
  · have : (n : ℚ) ≤ 2 ^ 64 := by exact_mod_cast le_of_lt h64
    exact_mod_cast this

end Double
end Kit
