import Mathlib.Data.List.Basic

/-!
# Kit.Budget

Lists cut to a budget. Every element has a weight; `fit` takes elements from the front while the
budget lasts, and stops at the first one that does not fit.

* `Longest`, `longest_fit`, `Longest.unique`: that is the one longest prefix the budget allows.
* `fit_fit`: to cut twice is to cut to the smaller budget.
* `fit_append_fit`: a cut inside never shows through one outside, where the budget inside is at
  least what the front leaves of the one outside.
* `scanDown_eq`: the scan from the budget downwards for a place to cut finds it.
-/

namespace Kit
namespace Budget

variable {α : Type*} (w : α → Nat)

def weight : List α → Nat
  | [] => 0
  | a :: as => w a + weight as

def fit : Nat → List α → List α
  | _, [] => []
  | n, a :: as => if w a ≤ n then a :: fit (n - w a) as else []

@[simp] theorem weight_nil : weight w [] = 0 := rfl

@[simp] theorem weight_cons (a : α) (as : List α) : weight w (a :: as) = w a + weight w as := rfl

@[simp] theorem weight_append (as bs : List α) :
    weight w (as ++ bs) = weight w as + weight w bs := by
  induction as with
  | nil => simp
  | cons a as ih =>
    rw [List.cons_append, weight_cons, weight_cons, ih]
    omega

theorem weight_le_of_prefix {as bs : List α} (h : as <+: bs) : weight w as ≤ weight w bs := by
  obtain ⟨cs, rfl⟩ := h
  rw [weight_append]
  exact Nat.le_add_right _ _

/-- `bs` is the longest prefix of `as` that weighs no more than `n`. -/
structure Longest (n : Nat) (as bs : List α) : Prop where
  isPrefix : bs <+: as
  fits : weight w bs ≤ n
  longest : ∀ cs, cs <+: as → weight w cs ≤ n → cs <+: bs

theorem Longest.unique {n : Nat} {as bs cs : List α} (hb : Longest w n as bs)
    (hc : Longest w n as cs) : bs = cs := by
  have h1 := hc.longest bs hb.isPrefix hb.fits
  have h2 := hb.longest cs hc.isPrefix hc.fits
  exact h1.eq_of_length_le h2.length_le

theorem fit_isPrefix (n : Nat) (as : List α) : fit w n as <+: as := by
  induction as generalizing n with
  | nil => exact List.prefix_rfl
  | cons a as ih =>
    rw [fit]
    split
    · exact (List.prefix_cons_inj a).mpr (ih _)
    · exact List.nil_prefix

theorem weight_fit_le (n : Nat) (as : List α) : weight w (fit w n as) ≤ n := by
  induction as generalizing n with
  | nil => exact Nat.zero_le n
  | cons a as ih =>
    rw [fit]
    split
    · have := ih (n - w a)
      rw [weight_cons]
      omega
    · exact Nat.zero_le n

theorem prefix_fit {n : Nat} {as cs : List α} (hp : cs <+: as) (hn : weight w cs ≤ n) :
    cs <+: fit w n as := by
  induction as generalizing n cs with
  | nil => rwa [fit]
  | cons a as ih =>
    cases cs with
    | nil => exact List.nil_prefix
    | cons c cs =>
      obtain ⟨rfl, htail⟩ := List.cons_prefix_cons.mp hp
      rw [weight_cons] at hn
      rw [fit, if_pos (by omega)]
      exact (List.prefix_cons_inj c).mpr (ih htail (by omega))

theorem longest_fit (n : Nat) (as : List α) : Longest w n as (fit w n as) where
  isPrefix := fit_isPrefix w n as
  fits := weight_fit_le w n as
  longest _ hp hn := prefix_fit w hp hn

theorem fit_of_weight_le {n : Nat} {as : List α} (h : weight w as ≤ n) : fit w n as = as :=
  (longest_fit w n as).unique w ⟨List.prefix_rfl, h, fun _ hp _ => hp⟩

theorem fit_fit {m n : Nat} (h : m ≤ n) (as : List α) : fit w m (fit w n as) = fit w m as := by
  refine (longest_fit w m _).unique w ⟨?_, weight_fit_le w m as, ?_⟩
  · exact prefix_fit w (fit_isPrefix w m as) (Nat.le_trans (weight_fit_le w m as) h)
  · exact fun cs hp hm => prefix_fit w (hp.trans (fit_isPrefix w n as)) hm

/-- Where the front fits, the rest gets what the front leaves. -/
theorem fit_append {n : Nat} {as : List α} (h : weight w as ≤ n) (bs : List α) :
    fit w n (as ++ bs) = as ++ fit w (n - weight w as) bs := by
  induction as generalizing n with
  | nil => rfl
  | cons a as ih =>
    rw [weight_cons] at h
    rw [List.cons_append, fit, if_pos (by omega), ih (by omega), weight_cons, List.cons_append]
    congr 3
    omega

/-- Where it does not, the rest is not reached. -/
theorem fit_append_of_lt {n : Nat} {as : List α} (h : n < weight w as) (bs : List α) :
    fit w n (as ++ bs) = fit w n as := by
  induction as generalizing n with
  | nil => exact absurd h (Nat.not_lt_zero n)
  | cons a as ih =>
    rw [weight_cons] at h
    rw [List.cons_append, fit, fit]
    split
    · rw [ih (by omega)]
    · rfl

theorem fit_append_fit {m n : Nat} {as : List α} (h : n ≤ weight w as + m) (bs : List α) :
    fit w n (as ++ fit w m bs) = fit w n (as ++ bs) := by
  rcases Nat.lt_or_ge n (weight w as) with hlt | hle
  · rw [fit_append_of_lt w hlt, fit_append_of_lt w hlt]
  · rw [fit_append w hle, fit_append w hle, fit_fit w (by omega)]

section Scan

/-- The greatest place from `n` down where `p` holds. -/
def scanDown (p : Nat → Bool) : Nat → Option Nat
  | 0 => if p 0 then some 0 else none
  | n + 1 => if p (n + 1) then some (n + 1) else scanDown p n

theorem scanDown_eq {p : Nat → Bool} {m n : Nat} (hm : p m = true) (hle : m ≤ n)
    (hmax : ∀ i, p i = true → i ≤ n → i ≤ m) : scanDown p n = some m := by
  induction n with
  | zero =>
    obtain rfl : m = 0 := Nat.le_zero.mp hle
    simp [scanDown, hm]
  | succ n ih =>
    rw [scanDown]
    split
    · rename_i hp
      have := hmax (n + 1) hp (Nat.le_refl _)
      rw [Nat.le_antisymm hle this]
    · rename_i hp
      have hne : m ≠ n + 1 := fun e => hp (e ▸ hm)
      exact ih (by omega) fun i hi hin => hmax i hi (by omega)

end Scan

end Budget
end Kit
