import Nockmark.Kit.Decimal
import Nockmark.Kit.Json
import Nockmark.Registry.Aipow

/-!
# Registry.Request

What the handlers of `registry/src/http.rs` share: replies and the query parameters.
-/

namespace Nockmark
namespace Registry

open Kit.Json (Value Members)

/-- A status code and a JSON body. -/
structure Reply where
  status : Nat
  body : Value

def Reply.error (status : Nat) (msg : String) : Reply :=
  ⟨status, .obj (.ofList [("error", .str msg)])⟩

def bad (msg : String) : Reply := .error 400 msg

/-- `INTERNAL_SERVER_ERROR` -/
def internal (msg : String) : Reply := .error 500 msg

def Reply.ok (body : Value) : Reply := ⟨200, body⟩

/-- The query parameters of a request. -/
abbrev Query := String → Option String

/-- `?track=ai` -/
def isAiTrack (q : Query) : Bool := q "track" = some "ai"

def statementFromQuery (debug : String → String) (q : Query) : Except String Statement :=
  match q "statement" with
  | some s => Statement.parse debug s
  | none => .ok .dense

/-- `s.parse::<u64>()` -/
def parseU64 (s : String) : Except Kit.IntErrorKind UInt64 :=
  (Kit.parseUInt (2 ^ 64) s).map UInt64.ofNat

def attemptsFromQuery (q : Query) : Except String (Option UInt64) :=
  match q "attempts" with
  | none => .ok none
  | some s =>
    match parseU64 s with
    | .ok n => .ok (some n)
    | .error e => .error s!"attempts must be a decimal u64: {e.message}"

/-- `n.to_string()` -/
def u64String (n : UInt64) : String := Kit.dec n.toNat

theorem parseU64_u64String (n : UInt64) : parseU64 (u64String n) = .ok n := by
  rw [parseU64, u64String, Kit.parseUInt_dec n.toNat_lt]
  exact congrArg Except.ok (UInt64.ofNat_toNat)

theorem parseU64_eq_ok {s : String} {n : UInt64} (h : parseU64 s = .ok n) :
    Kit.parseUInt (2 ^ 64) s = .ok n.toNat := by
  unfold parseU64 at h
  cases hp : Kit.parseUInt (2 ^ 64) s with
  | error e => rw [hp] at h; cases h
  | ok m =>
    rw [hp] at h
    cases h
    rw [UInt64.toNat_ofNat_of_lt' (Kit.parseUInt_lt hp)]

/-- Only one spelling of a number is the one it prints as. -/
theorem eq_u64String_iff {s : String} {n : UInt64} (h : parseU64 s = .ok n) :
    s = u64String n ↔ Kit.CanonicalNumeral s :=
  Kit.eq_dec_iff_canonical (parseU64_eq_ok h)

end Registry
end Nockmark
