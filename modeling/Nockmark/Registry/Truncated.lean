import Nockmark.Registry.Torn

/-!
# Registry.Truncated

What a boot makes of a log that was cut off at some byte.

`load` reads the whole file as text before it looks at lines, so a cut within a character fails the
boot, and at any other byte only the partial last event is lost.

* `within`: the events whose JSON text lies entirely inside the first bytes.
* `foldlM_cut`: text that was cut between characters replays exactly these.
* `load_cut_iff`: so a load gives their state if and only if a character begins at the cut.
* `boot_fails_within_char`: a cut within the `·` of a GPU descriptor.
-/

namespace Nockmark
namespace Registry

def jsonBytes (J : SerdeJson) (e : Event) : List UInt8 := Kit.Utf8.encode (J.print e.value)

def within (J : SerdeJson) : Nat → List Event → List Event
  | _, [] => []
  | n, e :: es =>
    if (jsonBytes J e).length ≤ n then e :: within J (n - (lineOf J e).length) es else []

theorem jsonBytes_ne_nil {J : SerdeJson} (hJ : J.RejectsTorn) (e : Event) : jsonBytes J e ≠ [] := by
  obtain ⟨t, ht⟩ := hJ.opens e
  rw [jsonBytes, ht, Kit.Utf8.encode_cons]
  simp [String.utf8EncodeChar_ne_nil]

theorem within_zero {J : SerdeJson} (hJ : J.RejectsTorn) (es : List Event) :
    within J 0 es = [] := by
  cases es with
  | nil => rfl
  | cons e es =>
    rw [within, if_neg]
    simpa using jsonBytes_ne_nil hJ e

theorem length_lineOf (J : SerdeJson) (e : Event) :
    (lineOf J e).length = (jsonBytes J e).length + 1 := List.length_append

/-- A last line that lacks its newline replays if it is the whole event. -/
theorem foldlM_last {J : SerdeJson} (hJ : J.RejectsTorn) {e : Event} {q : List Char}
    (hq : q <+: J.print e.value) (s : AiStore) :
    (Kit.Lines.lines q).foldlM (replayLine J) s =
      some (if q = J.print e.value then s.apply e else s) := by
  have hone := J.print_one_line _ (canonical_value e)
  by_cases h0 : q = []
  · subst h0
    obtain ⟨t, ht⟩ := hJ.opens e
    rw [if_neg (by rw [ht]; exact (List.cons_ne_nil _ _).symm)]
    rfl
  · have hnl : '\n' ∉ q := fun h => (hone _ (hq.subset h)).1 rfl
    have hfold : [q].foldlM (replayLine J) s = replayLine J s q := by
      rw [List.foldlM_cons]
      simp
    rw [Kit.Lines.lines_last hnl h0, hfold]
    by_cases hw : q = J.print e.value
    · rw [hw, if_pos rfl, replayLine_print]
    · rw [if_neg hw, replayLine, hJ.cut e q hq hw]

/-- Text cut from the front of a log replays the events that lie inside. -/
theorem foldlM_cut {J : SerdeJson} (hJ : J.RejectsTorn) {es : List Event} {n : Nat} {q : List Char}
    (hq : Kit.Utf8.encode q = (es.flatMap (lineOf J)).take n) (s : AiStore) :
    (Kit.Lines.lines q).foldlM (replayLine J) s = some ((within J n es).foldl AiStore.apply s) := by
  induction es generalizing n q s with
  | nil =>
    rw [List.flatMap_nil, List.take_nil] at hq
    obtain rfl : q = [] := Kit.Utf8.encode_injective hq
    rfl
  | cons e es ih =>
    rw [List.flatMap_cons] at hq
    have hlen := length_lineOf J e
    by_cases hn : (lineOf J e).length ≤ n
    · -- the whole line, and the cut somewhere after it
      rw [List.take_append, List.take_of_length_le hn] at hq
      have hpre : Kit.Utf8.encode (J.print e.value ++ ['\n']) <+: Kit.Utf8.encode q := by
        rw [hq, ← lineOf_eq]
        exact List.prefix_append _ _
      obtain ⟨q', rfl⟩ := Kit.Utf8.prefix_of_encode_prefix hpre
      rw [Kit.Utf8.encode_append, ← lineOf_eq] at hq
      rw [List.append_assoc, List.singleton_append,
        Kit.Lines.lines_line (J.print_one_line _ (canonical_value e)), List.foldlM_cons,
        replayLine_print, within, if_pos (by omega)]
      exact ih (List.append_cancel_left hq) (s.apply e)
    · -- within the line, or between its text and its newline
      have hle : n ≤ (jsonBytes J e).length := by omega
      rw [List.take_append_of_le_length (by omega), lineOf, ← jsonBytes,
        List.take_append_of_le_length hle] at hq
      have hpre : q <+: J.print e.value :=
        Kit.Utf8.prefix_of_encode_prefix (hq ▸ List.take_prefix n (jsonBytes J e))
      rw [foldlM_last hJ hpre, within, show n - (lineOf J e).length = 0 by omega, within_zero hJ]
      have hlen' := congrArg List.length hq
      rw [List.length_take, Nat.min_eq_left hle] at hlen'
      by_cases hw : q = J.print e.value
      · subst hw
        have hfull : (jsonBytes J e).length ≤ n := hlen'.le
        rw [if_pos rfl, if_pos hfull]
        rfl
      · have hpart : ¬ (jsonBytes J e).length ≤ n := by
          intro hge
          rw [List.take_of_length_le hge] at hq
          exact hw (Kit.Utf8.encode_injective hq)
        rw [if_neg hw, if_neg hpart]
        rfl

/-- The first `n` bytes of the file. -/
def Disk.cut (disk : Disk) (n : Nat) : Disk := disk.map (List.take n)

theorem load_logOf_cut_iff {J : SerdeJson} (hJ : J.RejectsTorn) {disk : Disk} {es : List Event}
    (hlog : LogOf J disk es) (n : Nat) :
    load J (disk.cut n) = .ok (replay (within J n es)) ↔ Kit.Utf8.Boundary (disk.getD []) n := by
  have hbytes := hlog
  rw [LogOf, flatMap_lineOf] at hbytes
  rw [hbytes, ← Kit.Utf8.take_encode_iff, ← hbytes]
  have hcut : (disk.cut n).getD [] = (disk.getD []).take n := by
    cases disk with
    | none => exact List.take_nil.symm
    | some bytes => rfl
  constructor
  · intro h
    obtain ⟨q, hq⟩ := text_of_load h
    exact ⟨q, hcut ▸ hq⟩
  · rintro ⟨q, hq⟩
    have hfold := foldlM_cut hJ (hq.symm.trans (congrArg (List.take n) hlog)) .empty
    cases disk with
    | none =>
      have h0 : q = [] := Kit.Utf8.encode_injective (by rw [← hq]; exact List.take_nil)
      subst h0
      exact congrArg Load.ok (Option.some.inj hfold)
    | some bytes =>
      have hdec : Kit.Utf8.decode? (bytes.take n) = some q := Kit.Utf8.decode?_eq_some.mpr hq
      show load J (some (bytes.take n)) = _
      rw [load]
      simp only [hdec, hfold]
      rfl

/-- For every log that whole appends have written and every cut: the boot succeeds with the state
after the events whose JSON text lies inside, exactly when a character begins at the cut or the
file ends there. -/
theorem load_cut_iff {J : SerdeJson} (hJ : J.RejectsTorn) {w : World}
    (h : (history J).Reach WholeAppends w) :
    ∃ es, LogOf J w.disk es ∧ (∀ s, w.live = some s → s = replay es) ∧
      ∀ n, load J (w.disk.cut n) = .ok (replay (within J n es)) ↔
        Kit.Utf8.Boundary (w.disk.getD []) n := by
  obtain ⟨es, hm⟩ := mirror_of_reach h
  exact ⟨es, hm.log, hm.live, load_logOf_cut_iff hJ hm.log⟩

/-- A mint and a run of a GPU, whose descriptor has a `·`. -/
def gpuRun : List Op :=
  [.record .written false 7 1000 none,
   .commit .written false ⟨7, .dense, "RTX 3090 · host m1", "0.1.0", .fill 32 0xff, 900, [3]⟩ 2500]

def gpuLog : World := (history .compact).run World.init gpuRun

/-- The call appends its line and returns success. -/
def Successful (w : World) (op : Op) : Prop :=
  ∃ s e, w.live = some s ∧ op.event? s = some (.written, false, e)

theorem Successful.whole {w : World} {op : Op} (h : Successful w op) : WholeAppends w op := by
  obtain ⟨s, e, -, he⟩ := h
  cases op with
  | record a crash nonce t target => cases he; trivial
  | commit a crash sub nowMs =>
    obtain ⟨p, -, rfl, -, -⟩ := event?_commit he
    trivial
  | restart => cases he

theorem reach_gpuLog : (history .compact).Reach Successful gpuLog :=
  Kit.Machine.Reach.run .init ⟨⟨_, _, rfl, rfl⟩, ⟨_, _, rfl, rfl⟩, trivial⟩

theorem gpuLog_byte : (gpuLog.disk.getD [])[106]? = some 0xB7 := by decide +kernel

/-- Cut just before the `·`, the file boots. -/
theorem load_cut_iff_gpuLog : ∃ s, load .compact (gpuLog.disk.cut 105) = .ok s := by
  obtain ⟨es, -, -, h⟩ := load_cut_iff compact_rejectsTorn (reach_gpuLog.mono fun _ _ h => h.whole)
  refine ⟨_, (h 105).mpr ?_⟩
  intro b hb
  have h105 : (gpuLog.disk.getD [])[105]? = some 0xC2 := by decide +kernel
  rw [h105] at hb
  cases hb
  decide

/-- Cut between the two bytes of the `·`, it does not. -/
theorem boot_fails_within_char :
    ¬ ∀ w, (history .compact).Reach Successful w → ∀ n, ∃ s,
      load .compact (w.disk.cut n) = .ok s := by
  intro h
  obtain ⟨s, hs⟩ := h gpuLog reach_gpuLog 106
  obtain ⟨q, hq⟩ := text_of_load hs
  obtain ⟨es, hm⟩ := mirror_of_reach (reach_gpuLog.mono fun _ _ h => h.whole)
  have hbytes := hm.log
  rw [LogOf, flatMap_lineOf] at hbytes
  have hcut : (gpuLog.disk.cut 106).getD [] = (gpuLog.disk.getD []).take 106 := rfl
  have hb := gpuLog_byte
  rw [hcut] at hq
  rw [hbytes] at hq hb
  exact absurd ((Kit.Utf8.take_encode_iff _ _).mp ⟨q, hq⟩ _ hb) (by decide)

end Registry
end Nockmark
