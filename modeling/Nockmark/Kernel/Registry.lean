import Mathlib.Data.Finmap
import Nockmark.Kit.Bytes
import Nockmark.Kit.Machine
import Nockmark.Kit.Utf8

/-!
# Kernel.Registry

The registry kernel (`hoon/registry.hoon`): challenges and the runs recorded against them.

A poke carries the event's entropy and time with the noun that the driver sent. `poke` answers
with effects and the next state, or crashes (`none`), and a crash leaves the state as it was. The
environment chooses every poke, so the kernel is a `Kit.Machine` over pokes.

* `poke_cases`: all that a poke can do, with the tests that it passed.
-/

namespace Nockmark
namespace Kernel

inductive Noun where
  | atom (a : Nat)
  | cell (h t : Noun)
  deriving DecidableEq

/-- A cord is the atom whose little-endian bytes are the text's UTF-8. -/
def cord (s : String) : Nat := Kit.leNat (Kit.Utf8.encode s.toList)

structure Challenge where
  issuedAt : Nat
  used : Bool
  deriving DecidableEq

structure Run where
  id : Nat
  nonce : Nat
  hardware : Nat
  proverVersion : Nat
  k : Nat
  elapsedMs : Nat
  issuedAt : Nat
  submittedAt : Nat
  deriving DecidableEq

structure RegistryState where
  challenges : Finmap fun _ : Nat => Challenge
  runs : List Run
  nextId : Nat

inductive Cause where
  | newChallenge
  | submitRun (nonce hardware proverVersion k elapsedMs : Nat)
  deriving DecidableEq

inductive Effect where
  | challengeMinted (nonce : Nat)
  | runRecorded (id : Nat)
  | rejected (reason : String)
  deriving DecidableEq

/-- `((soft cause) dat)`. -/
def softCause : Noun → Option Cause
  | .cell (.atom tag) rest =>
    if tag = cord "new-challenge" then
      match rest with
      | .atom 0 => some .newChallenge
      | _ => none
    else if tag = cord "submit-run" then
      match rest with
      | .cell (.atom nonce) (.cell (.atom hardware) (.cell (.atom proverVersion)
          (.cell (.atom k) (.atom elapsedMs)))) =>
        some (.submitRun nonce hardware proverVersion k elapsedMs)
      | _ => none
    else none
  | _ => none

/-- `~s1`: an `@da` is 64.64 fixed-point seconds. -/
def s1 : Nat := 2 ^ 64

/-- `~h1` -/
def h1 : Nat := 3600 * s1

/-- `(end 6 eny)`: the low 64 bits. -/
def end6 (eny : Nat) : Nat := eny % 2 ^ 64

/-- The window in milliseconds, as `%submit-run` computes it. -/
def windowMs (issuedAt now : Nat) : Nat := (now - issuedAt) * 1000 / s1

structure Poke where
  eny : Nat
  now : Nat
  dat : Noun
  deriving DecidableEq

def RegistryState.mint (s : RegistryState) (nonce now : Nat) : RegistryState :=
  { s with challenges := s.challenges.insert nonce ⟨now, false⟩ }

/-- The run that `%submit-run` records at `now` against the challenge `c`. -/
def RegistryState.newRun (s : RegistryState) (c : Challenge) (now : Nat)
    (nonce hardware proverVersion k elapsedMs : Nat) : Run :=
  ⟨s.nextId, nonce, hardware, proverVersion, k, elapsedMs, c.issuedAt, now⟩

def RegistryState.record (s : RegistryState) (r : Run) : RegistryState :=
  { runs := r :: s.runs
    nextId := s.nextId + 1
    challenges := s.challenges.insert r.nonce ⟨r.issuedAt, true⟩ }

/-- `none` is a crash: `sub` underflows when the clock has gone back behind the mint. -/
def poke (s : RegistryState) (p : Poke) : Option (List Effect × RegistryState) :=
  match softCause p.dat with
  | none => some ([.rejected "bad-cause"], s)
  | some .newChallenge =>
    some ([.challengeMinted (end6 p.eny)], s.mint (end6 p.eny) p.now)
  | some (.submitRun nonce hardware proverVersion k elapsedMs) =>
    match s.challenges.lookup nonce with
    | none => some ([.rejected "unknown-nonce"], s)
    | some c =>
      if c.used then some ([.rejected "nonce-used"], s)
      else if p.now > c.issuedAt + h1 then some ([.rejected "stale-nonce"], s)
      else if p.now < c.issuedAt then none
      else if elapsedMs > windowMs c.issuedAt p.now then
        some ([.rejected "elapsed-exceeds-window"], s)
      else
        some ([.runRecorded s.nextId],
          s.record (s.newRun c p.now nonce hardware proverVersion k elapsedMs))

def step (s : RegistryState) (p : Poke) : RegistryState :=
  match poke s p with
  | some (_, s') => s'
  | none => s

/-- The state of a freshly booted kernel. -/
def init : RegistryState := ⟨∅, [], 0⟩

def kernel : Kit.Machine RegistryState Poke := ⟨init, step⟩

/-- A poke keeps the state, mints, or records a run against a challenge that is unused, no older
than an hour and not from the future, with a claimed time that fits the window. -/
theorem poke_cases {s s' : RegistryState} {p : Poke} {es : List Effect}
    (h : poke s p = some (es, s')) :
    ((∃ reason, es = [.rejected reason]) ∧ s' = s) ∨
    (softCause p.dat = some .newChallenge ∧ es = [.challengeMinted (end6 p.eny)] ∧
      s' = s.mint (end6 p.eny) p.now) ∨
    (∃ nonce hardware proverVersion k elapsedMs c,
      softCause p.dat = some (.submitRun nonce hardware proverVersion k elapsedMs) ∧
      s.challenges.lookup nonce = some c ∧ c.used = false ∧ c.issuedAt ≤ p.now ∧
      p.now ≤ c.issuedAt + h1 ∧ elapsedMs ≤ windowMs c.issuedAt p.now ∧
      es = [.runRecorded s.nextId] ∧
      s' = s.record (s.newRun c p.now nonce hardware proverVersion k elapsedMs)) := by
  unfold poke at h
  split at h
  · cases h; exact .inl ⟨⟨_, rfl⟩, rfl⟩
  · rename_i hc; cases h; exact .inr (.inl ⟨hc, rfl, rfl⟩)
  · rename_i nonce hardware proverVersion k elapsedMs hc
    split at h
    · cases h; exact .inl ⟨⟨_, rfl⟩, rfl⟩
    · rename_i c hl
      split at h
      · cases h; exact .inl ⟨⟨_, rfl⟩, rfl⟩
      · rename_i hu
        split at h
        · cases h; exact .inl ⟨⟨_, rfl⟩, rfl⟩
        · rename_i hs
          split at h
          · cases h
          · rename_i hn
            split at h
            · cases h; exact .inl ⟨⟨_, rfl⟩, rfl⟩
            · rename_i he
              cases h
              exact .inr (.inr ⟨nonce, hardware, proverVersion, k, elapsedMs, c, hc, hl,
                by simpa using hu, by omega, by omega, by omega, rfl, rfl⟩)

/-- The same, of the state alone; a crash keeps it too. -/
theorem step_cases (s : RegistryState) (p : Poke) :
    step s p = s ∨
    (softCause p.dat = some .newChallenge ∧ step s p = s.mint (end6 p.eny) p.now) ∨
    (∃ nonce hardware proverVersion k elapsedMs c,
      softCause p.dat = some (.submitRun nonce hardware proverVersion k elapsedMs) ∧
      s.challenges.lookup nonce = some c ∧ c.used = false ∧ c.issuedAt ≤ p.now ∧
      p.now ≤ c.issuedAt + h1 ∧ elapsedMs ≤ windowMs c.issuedAt p.now ∧
      step s p = s.record (s.newRun c p.now nonce hardware proverVersion k elapsedMs)) := by
  unfold step
  split
  · rename_i s' h
    obtain ⟨-, rfl⟩ | ⟨hc, -, rfl⟩ | ⟨n, hw, pv, k, ms, c, hc, hl, hu, h1, h2, h3, -, rfl⟩ :=
      poke_cases h
    · exact .inl rfl
    · exact .inr (.inl ⟨hc, rfl⟩)
    · exact .inr (.inr ⟨n, hw, pv, k, ms, c, hc, hl, hu, h1, h2, h3, rfl⟩)
  · exact .inl rfl

@[simp] theorem mint_runs (s : RegistryState) (n now : Nat) : (s.mint n now).runs = s.runs := rfl

@[simp] theorem record_runs (s : RegistryState) (r : Run) : (s.record r).runs = r :: s.runs := rfl

theorem lookup_mint_self (s : RegistryState) (n now : Nat) :
    (s.mint n now).challenges.lookup n = some ⟨now, false⟩ := Finmap.lookup_insert _

theorem lookup_mint_ne (s : RegistryState) {n m : Nat} (h : m ≠ n) (now : Nat) :
    (s.mint n now).challenges.lookup m = s.challenges.lookup m :=
  Finmap.lookup_insert_of_ne _ h

theorem lookup_record_self (s : RegistryState) (r : Run) :
    (s.record r).challenges.lookup r.nonce = some ⟨r.issuedAt, true⟩ := Finmap.lookup_insert _

theorem lookup_record_ne (s : RegistryState) (r : Run) {m : Nat} (h : m ≠ r.nonce) :
    (s.record r).challenges.lookup m = s.challenges.lookup m :=
  Finmap.lookup_insert_of_ne _ h

end Kernel
end Nockmark
