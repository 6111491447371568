import Mathlib.Data.Nat.Digits.Defs
import Nockmark.Kernel.Registry

/-!
# Kernel.Driver

`RegistryKernel` (`registry/src/kernel.rs`): the pokes and the peek that the server makes, and what
it reads from the answers.

A number that a noun cannot carry directly makes `D` panic (`none`). A poke that crashes, or an
answer that does not decode, is a `NockAppError`.

* `leaderboard_eq_ok`: the records that `leaderboard` returns are the kernel's runs, in its order.
* `daDiffToMs_eq`: within an hour the fixed-point arithmetic neither saturates nor truncates.
-/

namespace Nockmark
namespace Kernel

inductive NockAppError where
  | crash
  | other (message : String)
  deriving DecidableEq

structure RunRecord where
  id : Nat
  nonce : Nat
  hardware : String
  proverVersion : String
  k : Nat
  elapsedMs : Nat
  issuedAt : Nat
  submittedAt : Nat
  deriving DecidableEq

/-- The bytes of an atom, without trailing zeros. -/
def atomBytes (a : Nat) : List UInt8 := (Nat.digits 256 a).map UInt8.ofNat

def asU64 (field : String) (a : Nat) : Except String Nat :=
  if a < 2 ^ 64 then .ok a else .error s!"{field} too large for u64"

def atomToU128 (a : Nat) : Except String Nat :=
  if a < 2 ^ 128 then .ok a else .error "atom too large for u128"

def intoString (field : String) (a : Nat) : Except String String :=
  match Kit.Utf8.decode? (atomBytes a) with
  | some cs => .ok (String.ofList cs)
  | none => .error s!"non-utf8 {field}"

/-- `RunRecord::from_noun`, of a run noun; the first field that does not decode names the error. -/
def RunRecord.fromNoun (r : Run) : Except String RunRecord := do
  let id ← asU64 "id" r.id
  let nonce ← asU64 "nonce" r.nonce
  let hardware ← intoString "hardware" r.hardware
  let proverVersion ← intoString "prover_version" r.proverVersion
  let k ← asU64 "k" r.k
  let elapsedMs ← asU64 "elapsed_ms" r.elapsedMs
  let issuedAt ← atomToU128 r.issuedAt
  let submittedAt ← atomToU128 r.submittedAt
  return ⟨id, nonce, hardware, proverVersion, k, elapsedMs, issuedAt, submittedAt⟩

/-- Difference of two `@da` atoms in milliseconds: saturating u128 arithmetic, cut to u64. -/
def daDiffToMs (issuedAt submittedAt : Nat) : Nat :=
  (min ((submittedAt - issuedAt) * 1000) (2 ^ 128 - 1) >>> 64) % 2 ^ 64

/-- `DIRECT_MAX` -/
def directMax : Nat := 2 ^ 63 - 1

/-- A direct atom. -/
def D (n : Nat) : Option Noun := if n ≤ directMax then some (.atom n) else none

/-- The cause that `mint_challenge` pokes. -/
def mintCause : Noun := .cell (.atom (cord "new-challenge")) (.atom 0)

/-- The cause that `submit_run` pokes. -/
def submitCause (nonce : UInt64) (hardware proverVersion : String) (k elapsedMs : UInt64) :
    Option Noun := do
  let k ← D k.toNat
  let elapsedMs ← D elapsedMs.toNat
  return .cell (.atom (cord "submit-run")) (.cell (.atom nonce.toNat) (.cell (.atom (cord hardware))
    (.cell (.atom (cord proverVersion)) (.cell k elapsedMs))))

/-- The first `%challenge-minted` effect. -/
def mintedNonce : List Effect → Except NockAppError UInt64
  | [] => .error (.other "no challenge-minted effect")
  | .challengeMinted nonce :: _ =>
    if nonce < 2 ^ 64 then .ok (UInt64.ofNat nonce) else .error (.other "nonce too large for u64")
  | _ :: es => mintedNonce es

/-- The first `%run-recorded` or `%rejected` effect. -/
def submitAnswer : List Effect → Except NockAppError (Except String Nat)
  | [] => .error (.other "no effect from submit-run")
  | .runRecorded id :: _ =>
    if id < 2 ^ 64 then .ok (.ok id) else .error (.other "id too large for u64")
  | .rejected reason :: _ => .ok (.error reason)
  | _ :: es => submitAnswer es

/-- Poke the kernel and read its effects. -/
def pokeWith {α : Type} (s : RegistryState) (p : Poke)
    (read : List Effect → Except NockAppError α) : Except NockAppError α × RegistryState :=
  match poke s p with
  | some (es, s') => (read es, s')
  | none => (.error .crash, s)

def mintChallenge (s : RegistryState) (eny now : Nat) :
    Except NockAppError UInt64 × RegistryState :=
  pokeWith s ⟨eny, now, mintCause⟩ mintedNonce

def submitRun (s : RegistryState) (eny now : Nat) (nonce : UInt64)
    (hardware proverVersion : String) (k elapsedMs : UInt64) :
    Option (Except NockAppError (Except String Nat) × RegistryState) :=
  (submitCause nonce hardware proverVersion k elapsedMs).map fun dat =>
    pokeWith s ⟨eny, now, dat⟩ submitAnswer

/-- The peek of `[%leaderboard ~]`, decoded. -/
def leaderboard (s : RegistryState) : Except NockAppError (List RunRecord) :=
  match s.runs.mapM RunRecord.fromNoun with
  | .ok rs => .ok rs
  | .error e => .error (.other s!"decode leaderboard: {e}")

theorem asU64_eq_ok {field : String} {a b : Nat} (h : asU64 field a = .ok b) :
    b = a ∧ a < 2 ^ 64 := by
  unfold asU64 at h
  split at h
  · rename_i hlt; cases h; exact ⟨rfl, hlt⟩
  · cases h

theorem atomToU128_eq_ok {a b : Nat} (h : atomToU128 a = .ok b) : b = a ∧ a < 2 ^ 128 := by
  unfold atomToU128 at h
  split at h
  · rename_i hlt; cases h; exact ⟨rfl, hlt⟩
  · cases h

/-- A record has the run's numbers, and they fit their types. -/
theorem RunRecord.fromNoun_eq_ok {r : Run} {rec : RunRecord} (h : fromNoun r = .ok rec) :
    rec.id = r.id ∧ rec.nonce = r.nonce ∧ rec.k = r.k ∧ rec.elapsedMs = r.elapsedMs ∧
    rec.issuedAt = r.issuedAt ∧ rec.submittedAt = r.submittedAt := by
  unfold fromNoun at h
  cases h1 : asU64 "id" r.id with
  | error e => rw [h1] at h; cases h
  | ok id =>
  cases h2 : asU64 "nonce" r.nonce with
  | error e => rw [h1, h2] at h; cases h
  | ok nonce =>
  cases h3 : intoString "hardware" r.hardware with
  | error e => rw [h1, h2, h3] at h; cases h
  | ok hardware =>
  cases h4 : intoString "prover_version" r.proverVersion with
  | error e => rw [h1, h2, h3, h4] at h; cases h
  | ok proverVersion =>
  cases h5 : asU64 "k" r.k with
  | error e => rw [h1, h2, h3, h4, h5] at h; cases h
  | ok k =>
  cases h6 : asU64 "elapsed_ms" r.elapsedMs with
  | error e => rw [h1, h2, h3, h4, h5, h6] at h; cases h
  | ok elapsedMs =>
  cases h7 : atomToU128 r.issuedAt with
  | error e => rw [h1, h2, h3, h4, h5, h6, h7] at h; cases h
  | ok issuedAt =>
  cases h8 : atomToU128 r.submittedAt with
  | error e => rw [h1, h2, h3, h4, h5, h6, h7, h8] at h; cases h
  | ok submittedAt =>
    rw [h1, h2, h3, h4, h5, h6, h7, h8] at h
    cases h
    exact ⟨(asU64_eq_ok h1).1, (asU64_eq_ok h2).1, (asU64_eq_ok h5).1, (asU64_eq_ok h6).1,
      (atomToU128_eq_ok h7).1, (atomToU128_eq_ok h8).1⟩

theorem mapM_eq_ok {α β : Type} {f : α → Except String β} {as : List α} {bs : List β}
    (h : as.mapM f = .ok bs) : List.Forall₂ (fun a b => f a = .ok b) as bs := by
  induction as generalizing bs with
  | nil => cases h; exact .nil
  | cons a as ih =>
    rw [List.mapM_cons] at h
    cases ha : f a with
    | error e => rw [ha] at h; cases h
    | ok b =>
      cases hs : as.mapM f with
      | error e => rw [ha, hs] at h; cases h
      | ok bs' =>
        rw [ha, hs] at h
        cases h
        exact .cons ha (ih hs)

theorem mem_right_of_forall₂ {α β : Type} {R : α → β → Prop} {as : List α} {bs : List β}
    (h : List.Forall₂ R as bs) {b : β} (hb : b ∈ bs) : ∃ a ∈ as, R a b := by
  induction h with
  | nil => cases hb
  | cons hab _ ih =>
    rcases List.mem_cons.mp hb with rfl | hb
    · exact ⟨_, List.mem_cons_self, hab⟩
    · obtain ⟨a, ha, hr⟩ := ih hb
      exact ⟨a, List.mem_cons_of_mem _ ha, hr⟩

theorem leaderboard_eq_ok {s : RegistryState} {rs : List RunRecord} (h : leaderboard s = .ok rs) :
    List.Forall₂ (fun r rec => RunRecord.fromNoun r = .ok rec) s.runs rs := by
  unfold leaderboard at h
  split at h
  · rename_i hm; cases h; exact mapM_eq_ok hm
  · cases h

theorem softCause_mintCause : softCause mintCause = some .newChallenge := by
  simp only [mintCause, softCause, if_true]

/-- A mint never fails: it mints the low 64 bits of the entropy. -/
theorem mintChallenge_eq (s : RegistryState) (eny now : Nat) :
    mintChallenge s eny now = (.ok (UInt64.ofNat (end6 eny)), s.mint (end6 eny) now) := by
  have hlt : end6 eny < 2 ^ 64 := Nat.mod_lt _ (Nat.two_pow_pos 64)
  simp only [mintChallenge, pokeWith, poke, softCause_mintCause, mintedNonce, if_pos hlt]

theorem softCause_submitCause {nonce : UInt64} {hardware proverVersion : String}
    {k elapsedMs : UInt64} {dat : Noun}
    (h : submitCause nonce hardware proverVersion k elapsedMs = some dat) :
    softCause dat = some (.submitRun nonce.toNat (cord hardware) (cord proverVersion) k.toNat
      elapsedMs.toNat) := by
  have hne : cord "submit-run" ≠ cord "new-challenge" := by decide
  unfold submitCause D at h
  by_cases hk : k.toNat ≤ directMax
  · by_cases he : elapsedMs.toNat ≤ directMax
    · rw [if_pos hk, if_pos he] at h
      cases h
      simp only [softCause, if_neg hne, if_true]
    · rw [if_pos hk, if_neg he] at h
      cases h
  · rw [if_neg hk] at h
    cases h

/-- A run id in answer means that the poke recorded that run, for the nonce that was asked. -/
theorem submitRun_recorded {s s' : RegistryState} {eny now : Nat} {nonce : UInt64}
    {hardware proverVersion : String} {k elapsedMs : UInt64} {id : Nat}
    (h : submitRun s eny now nonce hardware proverVersion k elapsedMs = some (.ok (.ok id), s')) :
    ∃ r : Run, s'.runs = r :: s.runs ∧ r.id = id ∧ r.nonce = nonce.toNat := by
  obtain ⟨dat, hdat, hp⟩ := Option.map_eq_some_iff.mp h
  have hsoft := softCause_submitCause hdat
  unfold pokeWith at hp
  split at hp
  · rename_i es s₁ hpoke
    simp only [Prod.mk.injEq] at hp
    obtain ⟨hread, rfl⟩ := hp
    obtain ⟨⟨reason, rfl⟩, -⟩ | ⟨-, rfl, -⟩ | ⟨n, hw, pv, k', ms, c, hc, -, -, -, -, -, rfl, rfl⟩ :=
      poke_cases hpoke
    · cases hread
    · cases hread
    · rw [hsoft] at hc
      cases hc
      simp only [submitAnswer] at hread
      split at hread
      · cases hread
        exact ⟨_, rfl, rfl, rfl⟩
      · cases hread
  · cases hp

theorem daDiffToMs_eq {issuedAt submittedAt : Nat} (h : submittedAt ≤ issuedAt + h1) :
    daDiffToMs issuedAt submittedAt = (submittedAt - issuedAt) * 1000 / 2 ^ 64 := by
  unfold h1 s1 at h
  have hle : submittedAt - issuedAt ≤ 3600 * 2 ^ 64 := by omega
  generalize hd : submittedAt - issuedAt = d at *
  unfold daDiffToMs
  rw [hd, Nat.shiftRight_eq_div_pow, Nat.min_eq_left (by omega), Nat.mod_eq_of_lt]
  omega

end Kernel
end Nockmark
