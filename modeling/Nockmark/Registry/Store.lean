import Mathlib.Data.Finmap
import Nockmark.Kit.Json
import Nockmark.Kit.Lines
import Nockmark.Registry.Aipow

/-!
# Registry.Store

The AI store (`registry/src/aipow.rs`): pending and used challenges and verified runs in memory,
one JSON event per line on disk.

An append writes the whole line, or a prefix of it, or nothing. `load` can fail on text that is no
UTF-8 and panic in `parse_hex32`. Ids and counts are natural numbers: they stand for u64 counters
that never get to `2^64`.

* `SerdeJson`: the JSON library, a printer and a parser with what is assumed of them.
* `Event`: what a line says; `readEvent_value`: a written event reads back as itself.
* `AiStore.apply`: what replaying an event does. `recordChallenge_ok` and `commitRun_written`:
  the live operations do the same.
-/

namespace Nockmark
namespace Registry

open Kit.Json (Value Members)
open Tock (Bytes32 hex32 parseHex32)

/-- `serde_json`: printing a value gives one line that parses back to the value. -/
structure SerdeJson where
  print : Value → List Char
  parse : List Char → Option Value
  parse_print : ∀ v, v.Canonical → parse (print v) = some v
  print_one_line : ∀ v, v.Canonical → ∀ c ∈ print v, c ≠ '\n' ∧ c ≠ '\r'

/-- Compact printing as the library does it. -/
def SerdeJson.compact : SerdeJson where
  print := Kit.Json.print
  parse := Kit.Json.parse
  parse_print v _ := Kit.Json.parse_print v
  print_one_line v _ := Kit.Json.print_one_line v

structure AiRunRecord where
  id : Nat
  nonce : UInt64
  hardware : String
  proverVersion : String
  statement : Statement
  k : Nat
  target : String
  grindElapsedMs : UInt64
  winExtranonces : List UInt64
  issuedAtMs : UInt64
  submittedAtMs : UInt64
  deriving DecidableEq

structure PendingChallenge where
  issuedAtMs : UInt64
  target : Option Bytes32
  deriving DecidableEq

structure AiStore where
  pending : Finmap fun _ : UInt64 => PendingChallenge
  used : Finset UInt64
  runs : List AiRunRecord
  nextId : Nat

def AiStore.empty : AiStore := ⟨∅, ∅, [], 1⟩

/-! ### Events -/

inductive Event where
  | challenge (nonce : UInt64) (pending : PendingChallenge)
  | run (run : AiRunRecord)
  deriving DecidableEq

def u64 (n : UInt64) : Value := .num n.toNat

def asU64 (v : Value) : Option UInt64 :=
  v.asNum.bind fun n => if n < 2 ^ 64 then some (UInt64.ofNat n) else none

/-- `to_value` of a run -/
def AiRunRecord.members (r : AiRunRecord) : Members Value :=
  .ofList [("id", .num r.id), ("nonce", u64 r.nonce), ("hardware", .str r.hardware),
    ("prover_version", .str r.proverVersion), ("statement", .str r.statement.asStr),
    ("k", .num r.k), ("target", .str r.target), ("grind_elapsed_ms", u64 r.grindElapsedMs),
    ("win_extranonces", .arr (r.winExtranonces.map u64)), ("issued_at_ms", u64 r.issuedAtMs),
    ("submitted_at_ms", u64 r.submittedAtMs)]

/-- The JSON of an event. A challenge without target has no `target` member. -/
def Event.value : Event → Value
  | .challenge nonce p =>
    let ev := Members.ofList
      [("ev", .str "challenge"), ("nonce", u64 nonce), ("issued_at_ms", u64 p.issuedAtMs)]
    match p.target with
    | some t => .obj (ev.insert "target" (.str (hex32 t)))
    | none => .obj ev
  | .run r => .obj (r.members.insert "ev" (.str "run"))

/-- A unit variant: its name, or an object with the name and `null`. -/
def Statement.fromValue : Value → Option Statement
  | .str s => (Statement.parse id s).toOption
  | .obj (.cons s .null .nil) => (Statement.parse id s).toOption
  | _ => none

/-- `from_value::<AiRunRecord>`; a missing statement is dense. -/
def AiRunRecord.fromValue : Value → Option AiRunRecord
  | .obj m => do
    let id ← (← m.get "id").asNum
    let nonce ← asU64 (← m.get "nonce")
    let hardware ← (← m.get "hardware").asStr
    let proverVersion ← (← m.get "prover_version").asStr
    let statement ← match m.get "statement" with
      | none => some .dense
      | some v => Statement.fromValue v
    let k ← (← m.get "k").asNum
    let target ← (← m.get "target").asStr
    let grindElapsedMs ← asU64 (← m.get "grind_elapsed_ms")
    let winExtranonces ← (← (← m.get "win_extranonces").asArr).mapM asU64
    let issuedAtMs ← asU64 (← m.get "issued_at_ms")
    let submittedAtMs ← asU64 (← m.get "submitted_at_ms")
    return ⟨id, nonce, hardware, proverVersion, statement, k, target, grindElapsedMs,
      winExtranonces, issuedAtMs, submittedAtMs⟩
  | _ => none

/-- The stored target: none if there is no text or it does not parse; the outer `none` is a
panic. -/
def readTarget (v : Value) : Option (Option Bytes32) :=
  match v.asStr with
  | none => some none
  | some s => (parseHex32 s).map Except.toOption

/-- What `load` makes of a value: an event, nothing, or (outer `none`) a panic. -/
def readEvent (v : Value) : Option (Option Event) :=
  match (v.index "ev").asStr with
  | some "challenge" =>
    match asU64 (v.index "nonce"), asU64 (v.index "issued_at_ms") with
    | some nonce, some t =>
      (readTarget (v.index "target")).map fun target => some (.challenge nonce ⟨t, target⟩)
    | _, _ => some none
  | some "run" => some ((AiRunRecord.fromValue v).map .run)
  | _ => some none

/-- The effect of replaying an event. -/
def AiStore.apply (s : AiStore) : Event → AiStore
  | .challenge nonce p => { s with pending := s.pending.insert nonce p }
  | .run r =>
    { pending := s.pending.erase r.nonce
      used := insert r.nonce s.used
      runs := s.runs ++ [r]
      nextId := max s.nextId (r.id + 1) }

/-! ### The log -/

/-- The bytes of the file, if there is one. -/
abbrev Disk := Option (List UInt8)

inductive Load where
  | ok (s : AiStore)
  | notUtf8
  | panicked

/-- `none` is a panic. -/
def replayLine (J : SerdeJson) (s : AiStore) (line : List Char) : Option AiStore :=
  match J.parse line with
  | none => some s
  | some v =>
    match readEvent v with
    | none => none
    | some none => some s
    | some (some e) => some (s.apply e)

def load (J : SerdeJson) (disk : Disk) : Load :=
  match disk with
  | none => .ok .empty
  | some bytes =>
    match Kit.Utf8.decode? bytes with
    | none => .notUtf8
    | some text =>
      match (Kit.Lines.lines text).foldlM (replayLine J) .empty with
      | some s => .ok s
      | none => .panicked

/-- How an append ends: the line written, or an error after some of its bytes (`none`: the file
was not even opened). -/
inductive Append where
  | written
  | failed (bytes : Option Nat)
  deriving DecidableEq

def Append.ok : Append → Bool
  | .written => true
  | .failed _ => false

/-- `writeln!(f, "{v}")` -/
def lineOf (J : SerdeJson) (e : Event) : List UInt8 :=
  Kit.Utf8.encode (J.print e.value) ++ [0x0A]

def append (J : SerdeJson) (a : Append) (disk : Disk) (e : Event) : Disk :=
  match a with
  | .written => some (disk.getD [] ++ lineOf J e)
  | .failed none => disk
  | .failed (some n) => some (disk.getD [] ++ (lineOf J e).take n)

/-! ### The operations -/

/-- `Ok(())` is `true`. -/
def recordChallenge (J : SerdeJson) (a : Append) (s : AiStore) (disk : Disk) (nonce : UInt64)
    (issuedAtMs : UInt64) (target : Option Bytes32) : Bool × AiStore × Disk :=
  let disk' := append J a disk (.challenge nonce ⟨issuedAtMs, target⟩)
  if a.ok then
    (true, { s with pending := s.pending.insert nonce ⟨issuedAtMs, target⟩ }, disk')
  else (false, s, disk')

/-- `u64::saturating_sub` -/
def satSub (a b : UInt64) : UInt64 := if b ≤ a then a - b else 0

def challengeStatus (s : AiStore) (nonce nowMs : UInt64) : Except String PendingChallenge :=
  if nonce ∈ s.used then .error "nonce-used"
  else
    match s.pending.lookup nonce with
    | none => .error "unknown-nonce"
    | some p =>
      if aiWindowMs < satSub nowMs p.issuedAtMs then .error "stale-nonce" else .ok p

/-- What a client asks to have recorded, with the target that its wins were verified at. -/
structure Submission where
  nonce : UInt64
  statement : Statement
  hardware : String
  proverVersion : String
  target : Bytes32
  grindElapsedMs : UInt64
  winExtranonces : List UInt64

inductive Commit where
  | recorded (run : AiRunRecord)
  | rejected (reason : String)
  | ioError
  deriving DecidableEq

/-- The run that `commit_run` records for a submission against `p`. -/
def newRun (s : AiStore) (sub : Submission) (p : PendingChallenge) (nowMs : UInt64) : AiRunRecord :=
  { id := s.nextId
    nonce := sub.nonce
    hardware := sub.hardware
    proverVersion := sub.proverVersion
    statement := sub.statement
    k := sub.winExtranonces.length
    target := hex32 sub.target
    grindElapsedMs := sub.grindElapsedMs
    winExtranonces := sub.winExtranonces
    issuedAtMs := p.issuedAtMs
    submittedAtMs := nowMs }

def commitRun (J : SerdeJson) (a : Append) (s : AiStore) (disk : Disk) (sub : Submission)
    (nowMs : UInt64) : Commit × AiStore × Disk :=
  match challengeStatus s sub.nonce nowMs with
  | .error reason => (.rejected reason, s, disk)
  | .ok p =>
    let run := newRun s sub p nowMs
    let disk' := append J a disk (.run run)
    if a.ok then
      (.recorded run,
        { pending := s.pending.erase sub.nonce
          used := insert sub.nonce s.used
          nextId := s.nextId + 1
          runs := s.runs ++ [run] },
        disk')
    else (.ioError, s, disk')

/-! ### Events round trip -/

theorem asU64_u64 (n : UInt64) : asU64 (u64 n) = some n := by
  show (if n.toNat < 2 ^ 64 then some (UInt64.ofNat n.toNat) else none) = some n
  rw [if_pos n.toNat_lt, UInt64.ofNat_toNat]

theorem mapM_asU64 (xs : List UInt64) : xs.mapM (asU64 ∘ u64) = some xs := by
  induction xs with
  | nil => rfl
  | cons x xs ih => rw [List.mapM_cons, Function.comp, asU64_u64, ← Function.comp_def, ih]; rfl

theorem fromValue_members (r : AiRunRecord) :
    AiRunRecord.fromValue (.obj (r.members.insert "ev" (.str "run"))) = some r := by
  have hs : Statement.fromValue (.str r.statement.asStr) = some r.statement := by
    rw [Statement.fromValue, Statement.parse_asStr]; rfl
  simp [AiRunRecord.fromValue, AiRunRecord.members, Members.ofList, Value.asNum, Value.asStr,
    Value.asArr, asU64_u64, mapM_asU64, hs]

theorem readEvent_value (e : Event) : readEvent e.value = some (some e) := by
  cases e with
  | challenge nonce p =>
    obtain ⟨t, target⟩ := p
    cases target with
    | none =>
      simp [readEvent, Event.value, Value.index, Members.ofList, Value.asStr, asU64_u64,
        readTarget, Members.get]
    | some target =>
      simp [readEvent, Event.value, Value.index, Members.ofList, Value.asStr, asU64_u64,
        readTarget, Tock.parseHex32_hex32, Except.toOption]
  | run r =>
    have hev : ((Event.run r).value.index "ev").asStr = some "run" := by
      simp [Event.value, Value.index, Value.asStr]
    rw [readEvent, hev]
    simp only [Event.value, fromValue_members]
    rfl

theorem canonical_value (e : Event) : e.value.Canonical := by
  cases e with
  | challenge nonce p =>
    obtain ⟨t, target⟩ := p
    have hev : (Value.obj (.ofList [("ev", .str "challenge"), ("nonce", u64 nonce),
        ("issued_at_ms", u64 t)])).Canonical :=
      Kit.Json.Value.canonical_ofList (by simp [u64, Value.Canonical])
    cases target with
    | none => exact hev
    | some target => exact Kit.Json.Value.canonical_insert (by simp [Value.Canonical]) hev
  | run r =>
    apply Kit.Json.Value.canonical_insert (by simp [Value.Canonical])
    apply Kit.Json.Value.canonical_ofList
    simp [u64, Value.Canonical, Kit.Json.Value.canonicalElems_iff]

theorem replayLine_print (J : SerdeJson) (s : AiStore) (e : Event) :
    replayLine J s (J.print e.value) = some (s.apply e) := by
  rw [replayLine, J.parse_print _ (canonical_value e)]
  simp only [readEvent_value]

/-! ### Operations and events -/

theorem satSub_toNat (a b : UInt64) : (satSub a b).toNat = a.toNat - b.toNat := by
  unfold satSub
  split
  · rename_i h; exact UInt64.toNat_sub_of_le _ _ h
  · rename_i h
    rw [UInt64.le_iff_toNat_le] at h
    show 0 = _
    omega

theorem recordChallenge_ok (J : SerdeJson) (s : AiStore) (disk : Disk) (nonce t : UInt64)
    (target : Option Bytes32) :
    recordChallenge J .written s disk nonce t target =
      (true, s.apply (.challenge nonce ⟨t, target⟩),
        append J .written disk (.challenge nonce ⟨t, target⟩)) := rfl

theorem challengeStatus_eq_ok {s : AiStore} {nonce nowMs : UInt64} {p : PendingChallenge}
    (h : challengeStatus s nonce nowMs = .ok p) :
    nonce ∉ s.used ∧ s.pending.lookup nonce = some p ∧ satSub nowMs p.issuedAtMs ≤ aiWindowMs := by
  unfold challengeStatus at h
  split at h
  · cases h
  · rename_i hu
    split at h
    · cases h
    · rename_i p' hl
      split at h
      · cases h
      · rename_i hw
        cases h
        exact ⟨hu, hl, UInt64.not_lt.mp hw⟩

/-- An accepted commit records the run, which takes the next id; its effect is that of the
event. -/
theorem commitRun_written (J : SerdeJson) {s : AiStore} (disk : Disk) {sub : Submission}
    {nowMs : UInt64} {p : PendingChallenge} (h : challengeStatus s sub.nonce nowMs = .ok p) :
    commitRun J .written s disk sub nowMs =
      (.recorded (newRun s sub p nowMs), s.apply (.run (newRun s sub p nowMs)),
        append J .written disk (.run (newRun s sub p nowMs))) := by
  have hid : max s.nextId ((newRun s sub p nowMs).id + 1) = s.nextId + 1 := Nat.max_eq_right (by
    show s.nextId ≤ s.nextId + 1
    omega)
  rw [commitRun, h]
  simp only [Append.ok, if_true, AiStore.apply, hid]
  rfl

end Registry
end Nockmark
