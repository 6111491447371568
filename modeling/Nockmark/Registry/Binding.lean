import Nockmark.Kit.Decimal
import Nockmark.Tock.Nonce

/-!
# Registry.Binding

The proof-to-challenge binding check (`registry/src/binding.rs`).

Decoding a jam into a proof is the parameter `decode`. Of a proof's objects only puzzles are
looked at.

* `checkBinding_eq_ok`, `checkBinding_of_expected`: the check passes exactly when the proof's first
  puzzle is the expected one.
-/

namespace Nockmark
namespace Registry

/-- The commitment, nonce and length of a puzzle object. -/
structure Puzzle where
  com : List UInt64
  nonce : List UInt64
  len : UInt64
  deriving DecidableEq

inductive ProofData where
  | puzzle (p : Puzzle)
  | other
  deriving DecidableEq

structure Proof where
  objects : List ProofData
  deriving DecidableEq

inductive BindingError where
  | undecodable
  | noPuzzle
  | wrongNonce
  | wrongHeader
  | wrongLen
  deriving DecidableEq

def BindingError.text : BindingError → String
  | .undecodable => "proof jam undecodable"
  | .noPuzzle => "proof has no puzzle object"
  | .wrongNonce => "proof nonce does not match challenge"
  | .wrongHeader => "proof header does not match challenge"
  | .wrongLen => "proof pow-len mismatch"

/-- The loop over the objects: the first puzzle decides. -/
def checkObjects (expectedNonce expectedHeader : List UInt64) (powLen : UInt64) :
    List ProofData → Except BindingError Unit
  | [] => .error .noPuzzle
  | .puzzle p :: _ =>
    if p.len ≠ powLen then .error .wrongLen
    else if p.nonce ≠ expectedNonce then .error .wrongNonce
    else if p.com ≠ expectedHeader then .error .wrongHeader
    else .ok ()
  | .other :: objects => checkObjects expectedNonce expectedHeader powLen objects

def checkBinding (decode : List UInt8 → Option Proof) (proofJam : List UInt8) (challenge : String)
    (index : Nat) (powLen : UInt64) : Except BindingError Unit :=
  match decode proofJam with
  | none => .error .undecodable
  | some proof =>
    checkObjects (Tock.seedToBelts (challenge ++ "/" ++ Kit.dec index) "nonce")
      (Tock.seedToBelts challenge "header") powLen proof.objects

/-- The first puzzle among the objects. -/
def Proof.firstPuzzle (proof : Proof) : Option Puzzle :=
  proof.objects.findSome? fun
    | .puzzle p => some p
    | .other => none

/-- The puzzle of proof `index` for a challenge. -/
def expectedPuzzle (challenge : String) (index : Nat) (powLen : UInt64) : Puzzle where
  com := Tock.seedToBelts challenge "header"
  nonce := Tock.seedToBelts (challenge ++ "/" ++ Kit.dec index) "nonce"
  len := powLen

theorem checkObjects_eq_ok {n h : List UInt64} {powLen : UInt64} {objects : List ProofData}
    {u : Unit} (hc : checkObjects n h powLen objects = .ok u) :
    (Proof.mk objects).firstPuzzle = some ⟨h, n, powLen⟩ := by
  induction objects with
  | nil => cases hc
  | cons o objects ih =>
    cases o with
    | other => exact ih hc
    | puzzle p =>
      obtain ⟨com, nonce, len⟩ := p
      simp only [checkObjects] at hc
      split at hc
      · cases hc
      rename_i hl
      split at hc
      · cases hc
      rename_i hn
      split at hc
      · cases hc
      rename_i hh
      rw [not_not] at hl hn hh
      subst hl hn hh
      rfl

theorem checkBinding_eq_ok {decode : List UInt8 → Option Proof} {jam : List UInt8}
    {challenge : String} {index : Nat} {powLen : UInt64} {u : Unit}
    (h : checkBinding decode jam challenge index powLen = .ok u) :
    ∃ proof, decode jam = some proof ∧
      proof.firstPuzzle = some (expectedPuzzle challenge index powLen) := by
  unfold checkBinding at h
  split at h
  · cases h
  · rename_i proof hd
    exact ⟨proof, hd, checkObjects_eq_ok h⟩

theorem checkObjects_of_firstPuzzle {n h : List UInt64} {powLen : UInt64}
    {objects : List ProofData} (hp : (Proof.mk objects).firstPuzzle = some ⟨h, n, powLen⟩) :
    checkObjects n h powLen objects = .ok () := by
  induction objects with
  | nil => cases hp
  | cons o objects ih =>
    cases o with
    | other => exact ih hp
    | puzzle p =>
      cases hp
      simp [checkObjects]

theorem checkBinding_of_expected {decode : List UInt8 → Option Proof} {jam : List UInt8}
    {challenge : String} {index : Nat} {powLen : UInt64} {proof : Proof}
    (hd : decode jam = some proof)
    (hp : proof.firstPuzzle = some (expectedPuzzle challenge index powLen)) :
    checkBinding decode jam challenge index powLen = .ok () := by
  rw [checkBinding, hd]
  exact checkObjects_of_firstPuzzle hp

end Registry
end Nockmark
