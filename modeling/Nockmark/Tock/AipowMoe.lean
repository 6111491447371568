import Nockmark.Kit.Search
import Nockmark.Tock.Aipow

/-!
# Tock.AipowMoe

The canonical-MoE grind loop (`tock/src/aipow_moe.rs`): ordinals 0, 1, 2, … until `k` of them win.

The crates that evaluate an attempt are a parameter, `Canonical`. The loop is not structural, so
it takes fuel (`none`: out of fuel) and `grindMoe_eq` says how much is enough. A panic is an
`Abort`; the two wall-clock figures of the result are left out.

* `grindMoeLoop_eq`: the loop searches `[0, 2^32 - 1)`. The last ordinal is evaluated, but
  `checked_add` overflows behind it, before the loop test sees its win.
-/

namespace Nockmark
namespace Tock

open Kit.Search

/-- What the upstream crates compute of an ordinal and of a target. -/
structure Canonical where
  canonicalGrindThreshold : Bytes32 → Except String Bytes32
  /-- `PreparedCanonicalMoeTemplate::evaluate`, its jackpot hash -/
  evaluate : Bytes32 → UInt32 → Bytes32
  evaluateCanonicalMoeJackpot : Bytes32 → UInt32 → Bytes32

/-- Template and scalar oracle compute one jackpot function. -/
structure Canonical.Lawful (u : Canonical) (jackpot : Bytes32 → UInt32 → Bytes32) : Prop where
  evaluate : u.evaluate = jackpot
  oracle : u.evaluateCanonicalMoeJackpot = jackpot

/-- `canonical_grind_threshold` at the canonical shape: `T · 2^16`, refused when it overflows. -/
def scaledThreshold (target : Bytes32) : Except String Bytes32 :=
  if target.toNat * 2 ^ 16 < 2 ^ 256 then .ok (.ofNat 32 (target.toNat * 2 ^ 16))
  else .error "threshold overflow"

structure AiMoeChallenge where
  challenge : Bytes32
  target : Bytes32
  k : UInt64

structure MoeGrindResult where
  winOrdinals : List UInt32
  totalAttempts : Nat
  deriving DecidableEq

inductive Abort where
  | kZero
  | threshold (e : String)
  | disagrees (ordinal : Nat)
  | exhausted
  | exhaustedAfter (attempts : Nat)
  | backend (e : String)
  | scheduler
  deriving DecidableEq

/-- The number of u32 ordinals. -/
def canonicalOrdinalSpace : Nat := 2 ^ 32

def checkedAdd1 (ordinal : UInt32) : Option UInt32 :=
  if ordinal.toNat + 1 < canonicalOrdinalSpace then some (ordinal + 1) else none

def grindMoeLoop (u : Canonical) (ch : AiMoeChallenge) (threshold : Bytes32) :
    Nat → List UInt32 → UInt32 → Nat → Option (Except Abort MoeGrindResult)
  | 0, _, _, _ => none
  | fuel + 1, winOrdinals, ordinal, attempts =>
    if winOrdinals.length < ch.k.toNat then
      let hash := u.evaluate ch.challenge ordinal
      if hashLeTarget hash threshold then
        if u.evaluateCanonicalMoeJackpot ch.challenge ordinal = hash then
          match checkedAdd1 ordinal with
          | some next =>
            grindMoeLoop u ch threshold fuel (winOrdinals ++ [ordinal]) next (attempts + 1)
          | none => some (.error .exhausted)
        else some (.error (.disagrees ordinal.toNat))
      else
        match checkedAdd1 ordinal with
        | some next => grindMoeLoop u ch threshold fuel winOrdinals next (attempts + 1)
        | none => some (.error .exhausted)
    else some (.ok ⟨winOrdinals, attempts⟩)

def grindMoe (u : Canonical) (fuel : Nat) (ch : AiMoeChallenge) :
    Option (Except Abort MoeGrindResult) :=
  if ch.k = 0 then some (.error .kZero)
  else
    match u.canonicalGrindThreshold ch.target with
    | .error e => some (.error (.threshold e))
    | .ok threshold => grindMoeLoop u ch threshold fuel [] 0 0

/-- Does the ordinal `n` win? -/
def wins (jackpot : UInt32 → Bytes32) (threshold : Bytes32) (n : Nat) : Bool :=
  hashLeTarget (jackpot (UInt32.ofNat n)) threshold

/-- What a loop that has found `found` returns, when the rest of its search yields `r`. -/
def searchResult (e : Abort) (found : List UInt32) :
    Option (List Nat × Nat) → Except Abort MoeGrindResult
  | some (ws, total) => .ok ⟨found ++ ws.map UInt32.ofNat, total⟩
  | none => .error e

/-- A win continues the search behind it, unless it is the last one wanted. -/
theorem searchResult_hit {p : Nat → Bool} {k lo hi w : Nat} {e : Abort} {found : List UInt32}
    (hk : (found ++ [UInt32.ofNat w]).length < k) (h : (hits p lo hi).head? = some w) :
    searchResult e found (search p (k - found.length) lo hi) =
      searchResult e (found ++ [UInt32.ofNat w])
        (search p (k - (found ++ [UInt32.ofNat w]).length) (w + 1) hi) := by
  rw [List.length_append, List.length_singleton] at *
  rw [show k - found.length = (k - (found.length + 1)) + 1 by omega,
    search_hit (by omega) h]
  cases search p (k - (found.length + 1)) (w + 1) hi with
  | none => rfl
  | some r => simp [searchResult]

theorem searchResult_last {p : Nat → Bool} {k lo hi w : Nat} {e : Abort} {found : List UInt32}
    (hk : found.length + 1 = k) (h : (hits p lo hi).head? = some w) :
    searchResult e found (search p (k - found.length) lo hi) =
      .ok ⟨found ++ [UInt32.ofNat w], w + 1⟩ := by
  rw [show k - found.length = 1 by omega, search_last h]
  rfl

theorem grindMoeLoop_done {u : Canonical} {ch : AiMoeChallenge} {threshold : Bytes32}
    {fuel : Nat} (hf : 0 < fuel) {found : List UInt32} (hl : found.length = ch.k.toNat)
    (ordinal : UInt32) (attempts : Nat) :
    grindMoeLoop u ch threshold fuel found ordinal attempts = some (.ok ⟨found, attempts⟩) := by
  obtain ⟨f, rfl⟩ := Nat.exists_eq_add_of_lt hf
  rw [Nat.zero_add, grindMoeLoop, if_neg (by omega)]

/-- The loop, from any ordinal: it searches all but the last. -/
theorem grindMoeLoop_eq {u : Canonical} {jackpot : Bytes32 → UInt32 → Bytes32}
    (hu : u.Lawful jackpot) {ch : AiMoeChallenge} {threshold : Bytes32} {fuel : Nat}
    {found : List UInt32} {ordinal : UInt32} (hfuel : canonicalOrdinalSpace - ordinal.toNat ≤ fuel)
    (hl : found.length < ch.k.toNat) :
    grindMoeLoop u ch threshold fuel found ordinal ordinal.toNat =
      some (searchResult .exhausted found
        (search (wins (jackpot ch.challenge) threshold) (ch.k.toNat - found.length)
          ordinal.toNat (canonicalOrdinalSpace - 1))) := by
  have hlt : ordinal.toNat < canonicalOrdinalSpace := ordinal.toNat_lt
  have hw : wins (jackpot ch.challenge) threshold ordinal.toNat =
      hashLeTarget (jackpot ch.challenge ordinal) threshold := by
    rw [wins, UInt32.ofNat_toNat]
  induction fuel generalizing found ordinal with
  | zero => omega
  | succ fuel ih =>
    rw [grindMoeLoop, if_pos hl]
    simp only [hu.evaluate, hu.oracle, if_true]
    rw [← hw]
    by_cases hnext : ordinal.toNat + 1 < canonicalOrdinalSpace
    · -- not the last ordinal: the loop goes on behind it
      have hc : checkedAdd1 ordinal = some (ordinal + 1) := by rw [checkedAdd1, if_pos hnext]
      have hsucc : (ordinal + 1).toNat = ordinal.toNat + 1 := by
        unfold canonicalOrdinalSpace at hnext
        rw [UInt32.toNat_add]
        simp only [UInt32.reduceToNat]
        omega
      have hrec {found' : List UInt32} (hl' : found'.length < ch.k.toNat) :=
        @ih found' (ordinal + 1) (by omega) hl' (by omega)
          (by rw [wins, UInt32.ofNat_toNat])
      rw [hsucc] at hrec
      rw [hc]
      cases hp : wins (jackpot ch.challenge) threshold ordinal.toNat with
      | false =>
        have hskip : hits (wins (jackpot ch.challenge) threshold) ordinal.toNat
            (ordinal.toNat + 1) = [] := by rw [hits_singleton, hp]; rfl
        rw [if_neg (by decide), search_skip (by omega) (by omega) hskip]
        exact hrec hl
      | true =>
        have hhead : (hits (wins (jackpot ch.challenge) threshold) ordinal.toNat
            (canonicalOrdinalSpace - 1)).head? = some ordinal.toNat := by
          rw [hits_append _ (by omega : ordinal.toNat ≤ ordinal.toNat + 1) (by omega),
            hits_singleton, hp]
          rfl
        rw [if_pos rfl]
        by_cases hlast : found.length + 1 = ch.k.toNat
        · rw [searchResult_last hlast hhead, UInt32.ofNat_toNat]
          exact grindMoeLoop_done (by omega) (by simpa using hlast) _ _
        · have hl' : (found ++ [UInt32.ofNat ordinal.toNat]).length < ch.k.toNat := by
            rw [List.length_append, List.length_singleton]; omega
          rw [searchResult_hit hl' hhead]
          rw [UInt32.ofNat_toNat] at hl' ⊢
          exact hrec hl'
    · -- the last ordinal, whether it wins or not
      have hc : checkedAdd1 ordinal = none := by rw [checkedAdd1, if_neg hnext]
      rw [hc, search_of_le (by omega) (by omega)]
      split <;> rfl

theorem grindMoe_eq {u : Canonical} {jackpot : Bytes32 → UInt32 → Bytes32}
    (hu : u.Lawful jackpot) {ch : AiMoeChallenge} (hk : ch.k ≠ 0) {threshold : Bytes32}
    (ht : u.canonicalGrindThreshold ch.target = .ok threshold) {fuel : Nat}
    (hfuel : canonicalOrdinalSpace ≤ fuel) :
    grindMoe u fuel ch =
      some (searchResult .exhausted []
        (search (wins (jackpot ch.challenge) threshold) ch.k.toNat 0
          (canonicalOrdinalSpace - 1))) := by
  have hpos : 0 < ch.k.toNat := by
    rcases Nat.eq_zero_or_pos ch.k.toNat with h0 | h0
    · exact absurd (UInt64.toNat_inj.mp h0) hk
    · exact h0
  rw [grindMoe, if_neg hk, ht]
  exact grindMoeLoop_eq hu hfuel hpos

end Tock
end Nockmark
