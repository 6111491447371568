import Nockmark.Kit.Machine
import Nockmark.Registry.Store

/-!
# Registry.History

Histories of the AI store: the process records, commits, fails in an append, crashes and loads the
file again, in any order and with any clock.

`World.live` is the store of the running process (`none`: it is down), `World.acked` remembers the
events whose call returned success. The environment chooses each operation with the way its append
ends, and whether the process dies before it answers.

* `step_cases`: an operation appends at most one event, `Op.event?`, or loads the file.
* `load_log`: a file of whole event lines loads as the replay of the events.
* `Mirror`, `Mirror.step`: while appends are whole, the file is such a file and the live store is
  its replay.
* `load_eq_live`: a load at any point gives the live store back.
-/

namespace Nockmark
namespace Registry

open Tock (Bytes32)

structure World where
  disk : Disk
  live : Option AiStore
  acked : List Event

inductive Op where
  | record (a : Append) (crash : Bool) (nonce issuedAtMs : UInt64) (target : Option Bytes32)
  | commit (a : Append) (crash : Bool) (sub : Submission) (nowMs : UInt64)
  | restart

/-- The store that the process goes on with. -/
def survive (crash : Bool) (s : AiStore) : Option AiStore := if crash then none else some s

def World.step (J : SerdeJson) (w : World) : Op → World
  | .record a crash nonce t target =>
    match w.live with
    | none => w
    | some s =>
      match recordChallenge J a s w.disk nonce t target with
      | (true, s', disk') =>
        ⟨disk', survive crash s',
          if crash then w.acked else .challenge nonce ⟨t, target⟩ :: w.acked⟩
      | (false, s', disk') => ⟨disk', survive crash s', w.acked⟩
  | .commit a crash sub nowMs =>
    match w.live with
    | none => w
    | some s =>
      match commitRun J a s w.disk sub nowMs with
      | (.recorded run, s', disk') =>
        ⟨disk', survive crash s', if crash then w.acked else .run run :: w.acked⟩
      | (_, s', disk') => ⟨disk', survive crash s', w.acked⟩
  | .restart =>
    match load J w.disk with
    | .ok s => { w with live := some s }
    | _ => { w with live := none }

/-- An empty data directory, loaded. -/
def World.init : World := ⟨none, some .empty, []⟩

def history (J : SerdeJson) : Kit.Machine World Op := ⟨World.init, World.step J⟩

/-! ### One operation -/

/-- The event that an operation tries to append, if it gets that far. -/
def Op.event? (s : AiStore) : Op → Option (Append × Bool × Event)
  | .record a crash nonce t target => some (a, crash, .challenge nonce ⟨t, target⟩)
  | .commit a crash sub nowMs =>
    match challengeStatus s sub.nonce nowMs with
    | .ok p => some (a, crash, .run (newRun s sub p nowMs))
    | .error _ => none
  | .restart => none

/-- The world after an append of `e` to the store `s`. -/
def World.appended (J : SerdeJson) (w : World) (s : AiStore) (a : Append) (crash : Bool)
    (e : Event) : World :=
  ⟨append J a w.disk e, survive crash (if a.ok then s.apply e else s),
    if a.ok && !crash then e :: w.acked else w.acked⟩

theorem event?_commit {s : AiStore} {a a' : Append} {crash crash' : Bool} {sub : Submission}
    {nowMs : UInt64} {e : Event}
    (h : (Op.commit a' crash' sub nowMs).event? s = some (a, crash, e)) :
    ∃ p, challengeStatus s sub.nonce nowMs = .ok p ∧ a = a' ∧ crash = crash' ∧
      e = .run (newRun s sub p nowMs) := by
  simp only [Op.event?] at h
  split at h
  · rename_i p hp; cases h; exact ⟨p, hp, rfl, rfl, rfl⟩
  · cases h

theorem step_event {J : SerdeJson} {w : World} {op : Op} {s : AiStore} {a : Append} {crash : Bool}
    {e : Event} (hs : w.live = some s) (he : op.event? s = some (a, crash, e)) :
    w.step J op = w.appended J s a crash e := by
  cases op with
  | record a' crash' nonce t target =>
    cases he
    cases a with
    | written =>
      cases crash <;> simp [World.step, hs, recordChallenge_ok, World.appended, Append.ok]
    | failed n =>
      cases crash <;> simp [World.step, hs, recordChallenge, World.appended, Append.ok]
  | commit a' crash' sub nowMs =>
    obtain ⟨p, hp, rfl, rfl, rfl⟩ := event?_commit he
    cases a with
    | written =>
      cases crash <;> simp [World.step, hs, commitRun_written J w.disk hp, World.appended,
        Append.ok]
    | failed n =>
      cases crash <;> simp [World.step, hs, commitRun, hp, World.appended, Append.ok]
  | restart => cases he

theorem step_restart (J : SerdeJson) (w : World) :
    (∃ s, load J w.disk = .ok s ∧ w.step J .restart = { w with live := some s }) ∨
    w.step J .restart = { w with live := none } := by
  simp only [World.step]
  split
  · rename_i s h; exact .inl ⟨s, h, rfl⟩
  · exact .inr rfl

/-- An operation that appends nothing leaves all but the process as it was. -/
theorem step_noEvent {J : SerdeJson} {w : World} {op : Op} (hop : op ≠ .restart)
    (hn : ∀ s, w.live = some s → op.event? s = none) :
    (w.step J op).disk = w.disk ∧ (w.step J op).acked = w.acked ∧
      ((w.step J op).live = w.live ∨ (w.step J op).live = none) := by
  cases hs : w.live with
  | none =>
    cases op with
    | restart => exact absurd rfl hop
    | record a crash nonce t target => simp [World.step, hs]
    | commit a crash sub nowMs => simp [World.step, hs]
  | some s =>
    cases op with
    | restart => exact absurd rfl hop
    | record a crash nonce t target => cases hn s hs
    | commit a crash sub nowMs =>
      have he := hn s hs
      simp only [Op.event?] at he
      split at he
      · cases he
      · rename_i reason hr
        cases crash <;> simp [World.step, hs, commitRun, hr, survive]

/-- What an operation does: nothing to file and acknowledgements, an append, or a load. -/
theorem step_cases (J : SerdeJson) (w : World) (op : Op) :
    ((w.step J op).disk = w.disk ∧ (w.step J op).acked = w.acked ∧
      ((w.step J op).live = w.live ∨ (w.step J op).live = none)) ∨
    (∃ s a crash e, w.live = some s ∧ op.event? s = some (a, crash, e) ∧
      w.step J op = w.appended J s a crash e) ∨
    ((w.step J op).disk = w.disk ∧ (w.step J op).acked = w.acked ∧
      ∃ s, load J w.disk = .ok s ∧ (w.step J op).live = some s) := by
  by_cases hop : op = .restart
  · subst hop
    rcases step_restart J w with ⟨s, hl, h⟩ | h
    · rw [h]; exact .inr (.inr ⟨rfl, rfl, s, hl, rfl⟩)
    · rw [h]; exact .inl ⟨rfl, rfl, .inr rfl⟩
  · by_cases he : ∃ s a crash e, w.live = some s ∧ op.event? s = some (a, crash, e)
    · obtain ⟨s, a, crash, e, hs, he⟩ := he
      exact .inr (.inl ⟨s, a, crash, e, hs, he, step_event hs he⟩)
    · left
      apply step_noEvent hop
      intro s hs
      cases hc : op.event? s with
      | none => rfl
      | some ace => exact absurd ⟨s, ace.1, ace.2.1, ace.2.2, hs, hc⟩ he

/-! ### Files of whole lines -/

/-- The file holds the lines of `es`. -/
def LogOf (J : SerdeJson) (disk : Disk) (es : List Event) : Prop :=
  disk.getD [] = es.flatMap (lineOf J)

theorem LogOf.append {J : SerdeJson} {disk : Disk} {es : List Event} (h : LogOf J disk es)
    (e : Event) : LogOf J (append J .written disk e) (es ++ [e]) := by
  show disk.getD [] ++ lineOf J e = _
  rw [h, List.flatMap_append, List.flatMap_singleton]

def replay (es : List Event) : AiStore := es.foldl AiStore.apply .empty

theorem replay_append (es : List Event) (e : Event) : replay (es ++ [e]) = (replay es).apply e := by
  rw [replay, List.foldl_append]
  rfl

theorem lines_events (J : SerdeJson) (es : List Event) :
    Kit.Lines.lines (es.flatMap fun e => J.print e.value ++ ['\n']) =
      es.map fun e => J.print e.value := by
  induction es with
  | nil => rfl
  | cons e es ih =>
    rw [List.flatMap_cons, List.append_assoc, List.singleton_append,
      Kit.Lines.lines_line (J.print_one_line _ (canonical_value e)), ih, List.map_cons]

theorem flatMap_lineOf (J : SerdeJson) (es : List Event) :
    es.flatMap (lineOf J) =
      Kit.Utf8.encode (es.flatMap fun e => J.print e.value ++ ['\n']) := by
  induction es with
  | nil => rfl
  | cons e es ih =>
    rw [List.flatMap_cons, List.flatMap_cons, Kit.Utf8.encode_append, Kit.Utf8.encode_append, ih]
    rfl

theorem foldlM_replayLine (J : SerdeJson) (s : AiStore) (es : List Event) :
    (es.map fun e => J.print e.value).foldlM (replayLine J) s =
      some (es.foldl AiStore.apply s) := by
  induction es generalizing s with
  | nil => rfl
  | cons e es ih =>
    rw [List.map_cons, List.foldlM_cons, replayLine_print]
    exact ih _

theorem load_log {J : SerdeJson} {disk : Disk} {es : List Event} (h : LogOf J disk es) :
    load J disk = .ok (replay es) := by
  cases disk with
  | none =>
    cases es with
    | nil => rfl
    | cons e es => simp [LogOf, lineOf] at h
  | some bytes =>
    rw [LogOf, Option.getD_some, flatMap_lineOf] at h
    unfold load
    rw [h]
    simp only [Kit.Utf8.decode?_encode, lines_events, foldlM_replayLine]
    rfl

/-! ### Whole appends -/

/-- The append writes its line or nothing. -/
def Append.Whole : Append → Prop
  | .written => True
  | .failed n => n = none

/-- No append of the operation is torn. -/
def WholeAppends (_ : World) : Op → Prop
  | .record a _ _ _ _ => a.Whole
  | .commit a _ _ _ => a.Whole
  | .restart => True

/-- The file holds the events `es`, and the live store is their replay. -/
structure Mirror (J : SerdeJson) (w : World) (es : List Event) : Prop where
  log : LogOf J w.disk es
  live : ∀ s, w.live = some s → s = replay es

theorem Mirror.init (J : SerdeJson) : Mirror J World.init [] :=
  ⟨rfl, fun _ h => by cases h; rfl⟩

theorem event?_whole {w : World} {op : Op} (hw : WholeAppends w op) {s : AiStore} {a : Append}
    {crash : Bool} {e : Event} (he : op.event? s = some (a, crash, e)) : a.Whole := by
  cases op with
  | record a' crash' nonce t target => cases he; exact hw
  | commit a' crash' sub nowMs =>
    obtain ⟨p, -, rfl, -, -⟩ := event?_commit he
    exact hw
  | restart => cases he

/-- A step keeps the events of the file or adds the one that it wrote. -/
theorem Mirror.step {J : SerdeJson} {w : World} {es : List Event} (hm : Mirror J w es) {op : Op}
    (hw : WholeAppends w op) :
    Mirror J (w.step J op) es ∨
    ∃ s crash e, w.live = some s ∧ op.event? s = some (.written, crash, e) ∧
      Mirror J (w.step J op) (es ++ [e]) := by
  obtain ⟨hd, -, hl⟩ | ⟨s, a, crash, e, hs, he, hstep⟩ | ⟨hd, -, s, hload, hl⟩ := step_cases J w op
  · left
    refine ⟨by rw [hd]; exact hm.log, ?_⟩
    intro s hs
    rcases hl with hl | hl
    · exact hm.live s (hl ▸ hs)
    · rw [hl] at hs; cases hs
  · have hrep := hm.live s hs
    cases a with
    | written =>
      right
      refine ⟨s, crash, e, hs, he, ?_⟩
      rw [hstep]
      constructor
      · exact hm.log.append e
      · intro s' hs'
        cases crash with
        | true => cases hs'
        | false => cases hs'; rw [replay_append, ← hrep]; rfl
    | failed n =>
      cases event?_whole hw he
      left
      rw [hstep]
      refine ⟨hm.log, ?_⟩
      intro s' hs'
      cases crash with
      | true => cases hs'
      | false => cases hs'; exact hrep
  · left
    refine ⟨by rw [hd]; exact hm.log, ?_⟩
    intro s' hs'
    rw [load_log hm.log] at hload
    rw [hl] at hs'
    cases hload
    cases hs'
    rfl

theorem mirror_of_reach {J : SerdeJson} {w : World} (h : (history J).Reach WholeAppends w) :
    ∃ es, Mirror J w es := by
  refine Kit.Machine.Reach.inv (I := fun w => ∃ es, Mirror J w es) ⟨[], Mirror.init J⟩ ?_ h
  rintro w op ⟨es, hm⟩ hw
  rcases hm.step hw with hm' | ⟨-, -, e, -, -, hm'⟩
  · exact ⟨es, hm'⟩
  · exact ⟨es ++ [e], hm'⟩

/-- Replay equals live state: while no append is torn, the file loads, and loads as the store of
the running process, whatever was recorded, committed, rejected and loaded before. -/
theorem load_eq_live (J : SerdeJson) {w : World} (h : (history J).Reach WholeAppends w) :
    (∃ s, load J w.disk = .ok s) ∧ ∀ s, w.live = some s → load J w.disk = .ok s := by
  obtain ⟨es, hm⟩ := mirror_of_reach h
  have hload := load_log hm.log
  refine ⟨⟨_, hload⟩, ?_⟩
  intro s hs
  rw [hload, ← hm.live s hs]

/-- Nonce 7 is minted, the file loaded, the nonce minted again with a target, run, and minted once
more after its run; a second submission is rejected. -/
def remintedAndRun : List Op :=
  let target : Bytes32 := .fill 32 0xff
  let sub : Submission := ⟨7, .canonicalMoe, "m1-max", "0.1.0", target, 900, [3, 9]⟩
  [.record .written false 7 1000 none, .restart, .record .written false 7 2000 (some target),
   .commit .written false sub 2500, .record .written false 7 3000 none,
   .commit .written false sub 3500]

theorem load_eq_live_remintedAndRun :
    ∃ s, load .compact ((history .compact).run World.init remintedAndRun).disk = .ok s ∧
      s.runs.length = 1 ∧ s.pending.lookup 7 = some ⟨3000, none⟩ ∧ s.nextId = 2 := by
  have h : (history .compact).Reach WholeAppends
      ((history .compact).run World.init remintedAndRun) :=
    Kit.Machine.Reach.run .init
      ⟨trivial, trivial, trivial, trivial, trivial, trivial, trivial⟩
  have hlive : (((history .compact).run World.init remintedAndRun).live.map fun s =>
      (s.runs.length, s.pending.lookup 7, s.nextId)) = some (1, some ⟨3000, none⟩, 2) := by
    decide +kernel
  obtain ⟨s, hs, heq⟩ := Option.map_eq_some_iff.mp hlive
  simp only [Prod.mk.injEq] at heq
  exact ⟨s, (load_eq_live _ h).2 s hs, heq⟩

end Registry
end Nockmark
