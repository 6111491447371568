import Nockmark.Kit.Journal
import Nockmark.Registry.Torn

/-!
# Registry.Readable

Exactly what a load of the AI log gives back.

Each append may stop after any of its bytes, and the process may go on, crash and load the file
again, any number of times. The lengths of the appends alone say which events a load finds: those
whose line is whole and stands alone, and the last one if it only lacks its newline.

* `SerdeJson.format`: the log as a journal.
* `journaled`: a history beside the journal that its appends make.
* `load_exact`: the load replays the journal's readable entries, or fails on bytes that are no text.
-/

namespace Nockmark
namespace Registry

open Kit.Json (Value)
open Kit.Journal (Stands State)

def SerdeJson.format (J : SerdeJson) : Kit.Journal.Format Event Value :=
  ⟨fun e => J.print e.value, Event.value, J.parse⟩

theorem SerdeJson.RejectsTorn.sound {J : SerdeJson} (hJ : J.RejectsTorn) : J.format.Sound where
  opens := hJ.opens
  one_line e := J.print_one_line _ (canonical_value e)
  parse_print e := J.parse_print _ (canonical_value e)
  cut := hJ.cut
  joined := hJ.joined

/-- How many bytes of the line get to the file. -/
def Append.bytes (J : SerdeJson) (e : Event) : Append → ℕ
  | .written => (lineOf J e).length
  | .failed n => n.getD 0

theorem append_getD (J : SerdeJson) (a : Append) (disk : Disk) (e : Event) :
    (append J a disk e).getD [] = disk.getD [] ++ (lineOf J e).take (a.bytes J e) := by
  cases a with
  | written => simp [append, Append.bytes]
  | failed n => cases n <;> simp [append, Append.bytes]

theorem Stands.append {J : SerdeJson} (hJ : J.RejectsTorn) {disk : Disk} {s : State Event}
    (h : Stands J.format (disk.getD []) s) (a : Append) (e : Event) :
    Stands J.format ((Registry.append J a disk e).getD []) (s.write J.format e (a.bytes J e)) := by
  rw [append_getD, lineOf_eq]
  exact Kit.Journal.stands_write hJ.sound h e _

/-! ### Loading -/

def replayValue (s : AiStore) (v : Value) : Option AiStore :=
  match readEvent v with
  | none => none
  | some none => some s
  | some (some e) => some (s.apply e)

/-- Lines that do not parse are skipped. -/
theorem foldlM_parsed (J : SerdeJson) (ls : List (List Char)) (s : AiStore) :
    ls.foldlM (replayLine J) s = (ls.filterMap J.parse).foldlM replayValue s := by
  induction ls generalizing s with
  | nil => rfl
  | cons line ls ih =>
    cases hp : J.parse line with
    | none =>
      rw [List.foldlM_cons, List.filterMap_cons_none hp, replayLine, hp]
      exact ih s
    | some v =>
      have hline : replayLine J s line = replayValue s v := by rw [replayLine, hp]; rfl
      rw [List.foldlM_cons, List.filterMap_cons_some hp, List.foldlM_cons, hline]
      exact congrArg _ (funext ih)

theorem foldlM_values (es : List Event) (s : AiStore) :
    (es.map Event.value).foldlM replayValue s = some (es.foldl AiStore.apply s) := by
  induction es generalizing s with
  | nil => rfl
  | cons e es ih =>
    have he : replayValue s e.value = some (s.apply e) := by rw [replayValue, readEvent_value]
    rw [List.map_cons, List.foldlM_cons, he]
    exact ih _

theorem load_of_stands {J : SerdeJson} (hJ : J.RejectsTorn) {disk : Disk} {s : State Event}
    (h : Stands J.format (disk.getD []) s) {text : List Char}
    (ht : disk.getD [] = Kit.Utf8.encode text) : load J disk = .ok (replay s.readable) := by
  have hparse : (Kit.Lines.lines text).filterMap J.parse = s.readable.map Event.value :=
    Kit.Journal.parse_lines hJ.sound h ht.symm
  cases disk with
  | none =>
    have h0 : text = [] := Kit.Utf8.encode_injective ht.symm
    subst h0
    have hnil : s.readable = [] := List.map_eq_nil_iff.mp hparse.symm
    rw [hnil]
    rfl
  | some bytes =>
    rw [Option.getD_some] at ht
    rw [ht, load]
    simp only [Kit.Utf8.decode?_encode, foldlM_parsed, hparse, foldlM_values]
    rfl

theorem load_of_bytes {J : SerdeJson} {disk : Disk}
    (h : ¬ ∃ text, disk.getD [] = Kit.Utf8.encode text) : load J disk = .notUtf8 := by
  cases disk with
  | none => exact absurd ⟨[], rfl⟩ h
  | some bytes =>
    cases hd : Kit.Utf8.decode? bytes with
    | none => rw [load]; simp only [hd]
    | some text => exact absurd ⟨text, Kit.Utf8.decode?_eq_some.mp hd⟩ h

/-! ### Histories -/

structure Journaled where
  world : World
  journal : State Event

/-- The journal that an operation of a running process leaves. -/
def Op.journal (J : SerdeJson) (live : Option AiStore) (op : Op) (s : State Event) : State Event :=
  match live.bind (op.event? ·) with
  | none => s
  | some (a, _, e) => s.write J.format e (a.bytes J e)

def journaled (J : SerdeJson) : Kit.Machine Journaled Op :=
  ⟨⟨World.init, .empty⟩, fun w op => ⟨w.world.step J op, op.journal J w.world.live w.journal⟩⟩

theorem world_journaled (J : SerdeJson) (w : Journaled) (ops : List Op) :
    ((journaled J).run w ops).world = (history J).run w.world ops := by
  induction ops generalizing w with
  | nil => rfl
  | cons op ops ih => exact ih _

theorem stands_step {J : SerdeJson} (hJ : J.RejectsTorn) {w : Journaled}
    (h : Stands J.format (w.world.disk.getD []) w.journal) (op : Op) :
    Stands J.format ((w.world.step J op).disk.getD []) (op.journal J w.world.live w.journal) := by
  cases he : w.world.live.bind (op.event? ·) with
  | none =>
    have hdisk : (w.world.step J op).disk = w.world.disk := by
      obtain ⟨hd, -, -⟩ | ⟨s, a, crash, e, hs, hev, -⟩ | ⟨hd, -, -⟩ := step_cases J w.world op
      · exact hd
      · rw [hs, Option.bind_some, hev] at he
        cases he
      · exact hd
    rw [hdisk, Op.journal, he]
    exact h
  | some ace =>
    obtain ⟨a, crash, e⟩ := ace
    obtain ⟨s, hs, hev⟩ := Option.bind_eq_some_iff.mp he
    rw [step_event hs hev, Op.journal, he]
    exact Stands.append hJ h a e

theorem stands_journaled {J : SerdeJson} (hJ : J.RejectsTorn) {w : Journaled}
    (h : (journaled J).Reach Kit.Machine.free w) :
    Stands J.format (w.world.disk.getD []) w.journal := by
  refine Kit.Machine.Reach.inv (I := fun w => Stands J.format (w.world.disk.getD []) w.journal)
    (Kit.Journal.stands_empty _) ?_ h
  intro w op hw _
  exact stands_step hJ hw op

/-- For every sequence of operations, with appends that stop anywhere, crashes and loads: a load
replays exactly the events that the journal finds readable, in their order, unless the bytes of the
file are no text, and then the load fails. -/
theorem load_exact {J : SerdeJson} (hJ : J.RejectsTorn) (ops : List Op) :
    let w := (history J).run World.init ops
    let events := ((journaled J).run (journaled J).init ops).journal.readable
    ((∃ text, w.disk.getD [] = Kit.Utf8.encode text) → load J w.disk = .ok (replay events)) ∧
      ((¬ ∃ text, w.disk.getD [] = Kit.Utf8.encode text) → load J w.disk = .notUtf8) := by
  intro w events
  have hstands := stands_journaled hJ (Kit.Machine.reach_run_free (journaled J) ops)
  rw [world_journaled] at hstands
  refine ⟨?_, load_of_bytes⟩
  rintro ⟨text, ht⟩
  exact load_of_stands hJ hstands ht

/-- A mint that stops after five bytes, one that runs into it, one on a line of its own, and one
that lacks its newline. -/
def tornMints : List Op :=
  [.record (.failed (some 5)) false 7 1000 none, .record .written false 9 2000 none,
    .record .written false 11 3000 none, .record (.failed (some 49)) false 13 4000 none]

theorem load_exact_tornMints :
    load .compact ((history .compact).run World.init tornMints).disk =
      .ok (replay [.challenge 11 ⟨3000, none⟩, .challenge 13 ⟨4000, none⟩]) := by
  have htext : ∃ text, ((history .compact).run World.init tornMints).disk.getD [] =
      Kit.Utf8.encode text := by
    have hsome : (Kit.Utf8.decode? (((history .compact).run World.init tornMints).disk.getD
        [])).isSome = true := by decide +kernel
    obtain ⟨text, ht⟩ := Option.isSome_iff_exists.mp hsome
    exact ⟨text, Kit.Utf8.decode?_eq_some.mp ht⟩
  have hevents : ((journaled .compact).run (journaled .compact).init tornMints).journal.readable =
      [.challenge 11 ⟨3000, none⟩, .challenge 13 ⟨4000, none⟩] := by decide +kernel
  rw [(load_exact compact_rejectsTorn tornMints).1 htext, hevents]

end Registry
end Nockmark
