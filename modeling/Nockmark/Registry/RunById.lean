import Nockmark.Kernel.RunLog
import Nockmark.Kit.Keyed
import Nockmark.Registry.Board
import Nockmark.Registry.Readable

/-!
# Registry.RunById

`GET /runs/:id` (`registry/src/http.rs`): the run of an id, on either track.

Both handlers take the first run with the id. The kernel numbers its runs without gaps; the AI
store goes on from the greatest id that it has loaded, so that ids may be missing where lines were
torn, but none is there twice.

* `Numbered`: the ids of the journal, and of the store that is live, ascend.
* `run_by_id_row`, `ai_run_by_id_row`: the route finds the row of the board that has the id.
-/

namespace Nockmark
namespace Registry

open Kernel (RegistryState RunRecord NockAppError)
open Kit.Journal (State Tail)
open Tock (Bytes32 hex32 parseHex32)

/-- `None` is a 404, and an error a 500. -/
def runById (econ : Econ) (s : RegistryState) (id : UInt64) :
    Except NockAppError (Option LeaderboardEntry) :=
  match Kernel.leaderboard s with
  | .ok runs => .ok ((runs.find? fun r => r.id = id.toNat).map (toEntry econ))
  | .error e => .error e

/-- The outer `none` is a panic of `parse_hex32`. -/
def aiRunById (rnd : ℚ → ℚ) (moeThreshold : Bytes32 → Except String Bytes32) (s : AiStore)
    (id : UInt64) : Option (Option AiLeaderboardEntry) :=
  match s.runs.find? fun r => r.id = id.toNat with
  | none => some none
  | some r => (toAiEntry rnd moeThreshold r).map some

theorem exists_of_mapM {α β : Type} {f : α → Option β} {as : List α} {bs : List β}
    (h : as.mapM f = some bs) {a : α} (ha : a ∈ as) : ∃ b ∈ bs, f a = some b := by
  induction as generalizing bs with
  | nil => cases ha
  | cons a' as ih =>
    rw [List.mapM_cons] at h
    obtain ⟨b, hb, h⟩ := Option.bind_eq_some_iff.mp h
    obtain ⟨bs', hbs, h⟩ := Option.bind_eq_some_iff.mp h
    cases h
    rcases List.mem_cons.mp ha with rfl | ha
    · exact ⟨b, List.mem_cons_self, hb⟩
    · obtain ⟨b', hb', hf⟩ := ih hbs ha
      exact ⟨b', List.mem_cons_of_mem _ hb', hf⟩

/-! ### The ZK track -/

theorem ids_leaderboard {s : RegistryState} {rs : List RunRecord}
    (h : Kernel.leaderboard s = .ok rs) : rs.map RunRecord.id = s.runs.map Kernel.Run.id := by
  have hrel := Kernel.leaderboard_eq_ok h
  clear h
  generalize s.runs = runs at hrel
  induction hrel with
  | nil => rfl
  | cons hr _ ih => rw [List.map_cons, List.map_cons, ih, (Kernel.RunRecord.fromNoun_eq_ok hr).1]

theorem ids_board (econ : Econ) (runs : List RunRecord) :
    ((board econ runs).map fun e => e.run.id).Perm (runs.map RunRecord.id) := by
  have hperm := (Kit.Ranking.rank_perm LeaderboardEntry.proofsPerSec
    (runs.map (toEntry econ))).map fun e => e.run.id
  rwa [List.map_map] at hperm

/-- In every state of the kernel: if the runs do not decode, both routes are a 500. Otherwise the
rows of the board have different ids, an id below the counter is that of a row, which the route
returns, and for every other id it finds nothing. -/
theorem run_by_id_row {s : RegistryState} (h : Kernel.kernel.Reach Kit.Machine.free s)
    (econ : Econ) :
    (∀ e id, runById econ s id = .error e ↔ leaderboard econ s = .error e) ∧
      ∀ listed, leaderboard econ s = .ok listed →
        (listed.map fun e => e.run.id).Nodup ∧
        ∀ id : UInt64,
          (∀ e, runById econ s id = .ok (some e) ↔ e ∈ listed ∧ e.run.id = id.toNat) ∧
            (runById econ s id = .ok none ↔ s.nextId ≤ id.toNat) := by
  cases hr : Kernel.leaderboard s with
  | error e => simp [runById, leaderboard, hr]
  | ok runs =>
    refine ⟨by simp [runById, leaderboard, hr], ?_⟩
    intro listed hl
    rw [leaderboard, hr] at hl
    cases hl
    have hlog := Kernel.runLog_of_reach h
    have hids : runs.map RunRecord.id = (List.range s.nextId).reverse :=
      (ids_leaderboard hr).trans hlog.ids
    have hnodup : (runs.map RunRecord.id).Nodup := by
      rw [hids]
      exact List.nodup_reverse.mpr List.nodup_range
    have hmem : ∀ e, e ∈ board econ runs ↔ ∃ r ∈ runs, toEntry econ r = e := fun e =>
      (Kit.Ranking.rank_perm _ _).mem_iff.trans List.mem_map
    refine ⟨(ids_board econ runs).nodup_iff.mpr hnodup, ?_⟩
    intro id
    simp only [runById, hr, Except.ok.injEq]
    refine ⟨?_, ?_⟩
    · intro e
      rw [Option.map_eq_some_iff, hmem]
      constructor
      · rintro ⟨r, hf, rfl⟩
        obtain ⟨hr', hid⟩ := (Kit.Keyed.find?_eq_some_iff hnodup).mp hf
        exact ⟨⟨r, hr', rfl⟩, hid⟩
      · rintro ⟨⟨r, hr', rfl⟩, hid⟩
        exact ⟨r, (Kit.Keyed.find?_eq_some_iff hnodup).mpr ⟨hr', hid⟩, rfl⟩
    · have hid : id.toNat ∈ runs.map RunRecord.id ↔ id.toNat < s.nextId := by
        rw [hids, List.mem_reverse, List.mem_range]
      rw [Option.map_eq_none_iff, List.find?_eq_none, ← Nat.not_lt, ← hid, List.mem_map]
      simp

theorem run_by_id_row_backAndForth :
    runById ⟨none, 150⟩ (Kernel.kernel.run Kernel.kernel.init Kernel.backAndForth) 1 =
      .ok none := by
  have hrun : (Kernel.leaderboard (Kernel.kernel.run Kernel.kernel.init Kernel.backAndForth)).isOk =
      true := by decide +kernel
  cases hr : Kernel.leaderboard (Kernel.kernel.run Kernel.kernel.init Kernel.backAndForth) with
  | error e => rw [hr] at hrun; cases hrun
  | ok runs =>
    have hl : leaderboard ⟨none, 150⟩ (Kernel.kernel.run Kernel.kernel.init Kernel.backAndForth) =
        .ok (board ⟨none, 150⟩ runs) := by rw [leaderboard, hr]
    obtain ⟨-, hrow⟩ := (run_by_id_row (Kit.Machine.reach_run_free _ _) ⟨none, 150⟩).2 _ hl
    exact (hrow 1).2.mpr (by decide)

/-! ### Ids of the AI track -/

def runIds (es : List Event) : List ℕ :=
  es.filterMap fun
    | .run r => some r.id
    | .challenge _ _ => none

@[simp] theorem runIds_nil : runIds [] = [] := rfl

@[simp] theorem runIds_append (es es' : List Event) :
    runIds (es ++ es') = runIds es ++ runIds es' :=
  List.filterMap_append

theorem runs_apply (s : AiStore) (e : Event) :
    (s.apply e).runs.map AiRunRecord.id = s.runs.map AiRunRecord.id ++ runIds [e] := by
  cases e with
  | challenge => exact (List.append_nil _).symm
  | run r => exact List.map_append

theorem nextId_apply (s : AiStore) (e : Event) :
    s.nextId ≤ (s.apply e).nextId ∧ ∀ i ∈ runIds [e], i < (s.apply e).nextId := by
  cases e with
  | challenge => exact ⟨le_rfl, by simp [runIds]⟩
  | run r =>
    refine ⟨le_max_left _ _, ?_⟩
    intro i hi
    rw [List.mem_singleton.mp hi]
    exact lt_of_lt_of_le (Nat.lt_succ_self _) (le_max_right _ _)

theorem runs_replay (es : List Event) : (replay es).runs.map AiRunRecord.id = runIds es := by
  induction es using List.reverseRecOn with
  | nil => rfl
  | append_singleton es e ih => rw [replay_append, runs_apply, runIds_append, ih]

theorem lt_nextId_replay (es : List Event) : ∀ i ∈ runIds es, i < (replay es).nextId := by
  induction es using List.reverseRecOn with
  | nil => simp
  | append_singleton es e ih =>
    rw [replay_append, runIds_append]
    obtain ⟨hle, hnew⟩ := nextId_apply (replay es) e
    exact List.forall_mem_append.mpr ⟨fun i hi => lt_of_lt_of_le (ih i hi) hle, hnew⟩

structure AiStore.Numbered (s : AiStore) : Prop where
  ascend : (s.runs.map AiRunRecord.id).Pairwise (· < ·)
  below : ∀ i ∈ s.runs.map AiRunRecord.id, i < s.nextId

/-- The journal's ids ascend, and the next id of the live store is above all that are on lines of
their own. -/
structure Numbered (w : Journaled) : Prop where
  journal : (runIds w.journal.readable).Pairwise (· < ·)
  live : ∀ s, w.world.live = some s → s.Numbered ∧
    (∀ i ∈ runIds w.journal.entries, i < s.nextId) ∧
    ∀ i ∈ runIds w.journal.tail.entries, i ≤ s.nextId

/-- An append that fails has not written its whole line. -/
def CutShort (J : SerdeJson) (w : World) (op : Op) : Prop :=
  ∀ s n crash e, w.live = some s → op.event? s = some (.failed (some n), crash, e) →
    n < (lineOf J e).length

theorem size_format (J : SerdeJson) (e : Event) :
    (lineOf J e).length = State.size J.format e + 1 := List.length_append

theorem pairwise_concat {xs : List ℕ} (h : xs.Pairwise (· < ·)) {i : ℕ} (hi : ∀ x ∈ xs, x < i) :
    (xs ++ [i]).Pairwise (· < ·) :=
  List.pairwise_append.mpr ⟨h, List.pairwise_singleton _ _, by simpa using hi⟩

/-- The ids of one event more, which takes the next id if it is a run. -/
theorem ids_of_event {op : Op} {s : AiStore} {a : Append} {crash : Bool} {e : Event}
    (he : op.event? s = some (a, crash, e)) : runIds [e] = [] ∨ runIds [e] = [s.nextId] := by
  cases op with
  | record a' crash' nonce t target => cases he; exact .inl rfl
  | commit a' crash' sub nowMs =>
    obtain ⟨p, -, rfl, rfl, rfl⟩ := event?_commit he
    exact .inr rfl
  | restart => cases he

theorem AiStore.Numbered.apply {s : AiStore} (h : s.Numbered) {e : Event}
    (he : runIds [e] = [] ∨ runIds [e] = [s.nextId]) : (s.apply e).Numbered := by
  obtain ⟨hle, hnew⟩ := nextId_apply s e
  refine ⟨?_, ?_⟩
  · rw [runs_apply]
    rcases he with hnil | hone
    · rw [hnil, List.append_nil]
      exact h.ascend
    · rw [hone]
      exact pairwise_concat h.ascend h.below
  · rw [runs_apply]
    exact List.forall_mem_append.mpr ⟨fun i hi => lt_of_lt_of_le (h.below i hi) hle, hnew⟩

theorem AiStore.Numbered.replay {es : List Event} (h : (runIds es).Pairwise (· < ·)) :
    (Registry.replay es).Numbered := by
  constructor
  · rw [runs_replay]
    exact h
  · rw [runs_replay]
    exact lt_nextId_replay es

theorem Numbered.append {J : SerdeJson} {w : Journaled} (h : Numbered w) {op : Op} {s : AiStore}
    {a : Append} {crash : Bool} {e : Event} (hs : w.world.live = some s)
    (he : op.event? s = some (a, crash, e))
    (hcut : ∀ n, a = .failed (some n) → n < (lineOf J e).length) :
    Numbered ⟨w.world.appended J s a crash e, w.journal.write J.format e (a.bytes J e)⟩ := by
  obtain ⟨hnum, hentries, htail⟩ := h.live s hs
  have hids := ids_of_event he
  obtain ⟨hle, hnext⟩ := nextId_apply s e
  have hpart : (runIds w.journal.entries).Pairwise (· < ·) := by
    have hj := h.journal
    rw [State.readable, runIds_append] at hj
    exact (List.pairwise_append.mp hj).1
  have hnew : (runIds (w.journal.entries ++ [e])).Pairwise (· < ·) := by
    rw [runIds_append]
    rcases hids with hnil | hone
    · rw [hnil, List.append_nil]
      exact hpart
    · rw [hone]
      exact pairwise_concat hpart hentries
  -- a whole line is one that was written, and a line without its newline one that was not
  have hline : State.size J.format e < a.bytes J e → a = .written := by
    intro hlt
    cases a with
    | written => rfl
    | failed n =>
      cases n with
      | none => exact absurd hlt (Nat.not_lt_zero _)
      | some n =>
        have hn := hcut n rfl
        rw [size_format] at hn
        exact absurd hlt (Nat.not_lt.mpr (Nat.le_of_lt_succ hn))
  have hnoline : a.bytes J e = State.size J.format e → a.ok = false := by
    intro heq
    cases a with
    | written =>
      rw [Append.bytes, size_format] at heq
      exact absurd heq (Nat.succ_ne_self _)
    | failed n => rfl
  have hkeep : s.nextId ≤ (if a.ok then s.apply e else s).nextId := by
    split
    · exact hle
    · exact le_rfl
  have hlive : ∀ s', (w.world.appended J s a crash e).live = some s' →
      s' = if a.ok then s.apply e else s := by
    intro s' hs'
    cases crash with
    | true => cases hs'
    | false => exact (Option.some.inj hs').symm
  have hnumbered : (if a.ok then s.apply e else s).Numbered := by
    split
    · exact hnum.apply hids
    · exact hnum
  rcases Kit.Journal.write_cases J.format w.journal e (a.bytes J e) with heq | ⟨hes, ht⟩ |
    ⟨hes, ht, hn⟩ | ⟨hes, ht, hn⟩
  · constructor
    · simp only [heq]
      exact h.journal
    · intro s' hs'
      rw [hlive s' hs']
      simp only [heq]
      exact ⟨hnumbered, fun i hi => lt_of_lt_of_le (hentries i hi) hkeep,
        fun i hi => le_trans (htail i hi) hkeep⟩
  · constructor
    · simp only [State.readable, hes, ht, List.append_nil]
      exact hpart
    · intro s' hs'
      rw [hlive s' hs']
      simp only [hes, ht]
      exact ⟨hnumbered, fun i hi => lt_of_lt_of_le (hentries i hi) hkeep, by simp⟩
  · constructor
    · simp only [State.readable, hes, ht, List.append_nil]
      exact hnew
    · intro s' hs'
      rw [hlive s' hs']
      simp only [hes, ht]
      refine ⟨hnumbered, ?_, by simp⟩
      rw [hline hn, runIds_append]
      exact List.forall_mem_append.mpr ⟨fun i hi => lt_of_lt_of_le (hentries i hi) hle, hnext⟩
  · constructor
    · simp only [State.readable, hes, ht]
      exact hnew
    · intro s' hs'
      rw [hlive s' hs']
      simp only [hes, ht]
      refine ⟨hnumbered, fun i hi => lt_of_lt_of_le (hentries i hi) hkeep, ?_⟩
      rw [hnoline hn]
      rcases hids with hnil | hone
      · simp [hnil]
      · simp [hone]

theorem Numbered.step {J : SerdeJson} (hJ : J.RejectsTorn) {w : Journaled}
    (hstands : Kit.Journal.Stands J.format (w.world.disk.getD []) w.journal) (h : Numbered w)
    {op : Op} (hcut : CutShort J w.world op) :
    Numbered ⟨w.world.step J op, op.journal J w.world.live w.journal⟩ := by
  cases he : w.world.live.bind (op.event? ·) with
  | some ace =>
    obtain ⟨a, crash, e⟩ := ace
    obtain ⟨s, hs, hev⟩ := Option.bind_eq_some_iff.mp he
    rw [step_event hs hev, Op.journal, he]
    exact h.append hs hev fun n hn => hcut s n crash e hs (hn ▸ hev)
  | none =>
    rw [Op.journal, he]
    refine ⟨h.journal, ?_⟩
    intro s hs
    obtain ⟨-, -, hl⟩ | ⟨s', a, crash, e, hs', hev, -⟩ | ⟨-, -, s', hload, hl⟩ :=
      step_cases J w.world op
    · rcases hl with hl | hl
      · exact h.live s (hl ▸ hs)
      · rw [hl] at hs
        cases hs
    · rw [hs', Option.bind_some, hev] at he
      cases he
    · -- a load: all ids that it finds are below the next one
      rw [hl] at hs
      cases hs
      obtain ⟨text, ht⟩ := text_of_load hload
      cases hload.symm.trans (load_of_stands hJ hstands ht)
      have hlt := lt_nextId_replay w.journal.readable
      rw [State.readable, runIds_append] at hlt
      obtain ⟨hentries, htail⟩ := List.forall_mem_append.mp hlt
      exact ⟨.replay h.journal, hentries, fun i hi => (htail i hi).le⟩

theorem reach_journaled {J : SerdeJson} {G : World → Op → Prop} {w : World}
    (h : (history J).Reach G w) :
    ∃ j, (journaled J).Reach (fun x op => G x.world op) ⟨w, j⟩ := by
  induction h with
  | init => exact ⟨_, .init⟩
  | step _ hg ih =>
    obtain ⟨j, hj⟩ := ih
    exact ⟨_, .step hj hg⟩

theorem numbered_of_reach {J : SerdeJson} (hJ : J.RejectsTorn) {w : Journaled}
    (h : (journaled J).Reach (fun x op => CutShort J x.world op) w) : Numbered w := by
  have hinv : Kit.Journal.Stands J.format (w.world.disk.getD []) w.journal ∧ Numbered w := by
    refine Kit.Machine.Reach.inv (I := fun w =>
      Kit.Journal.Stands J.format (w.world.disk.getD []) w.journal ∧ Numbered w) ?_ ?_ h
    · refine ⟨Kit.Journal.stands_empty _, .nil, ?_⟩
      intro s hs
      cases hs
      exact ⟨⟨.nil, nofun⟩, nofun, nofun⟩
    · rintro w op ⟨hs, hn⟩ hg
      exact ⟨stands_step hJ hs op, hn.step hJ hs hg⟩
  exact hinv.2

theorem runs_of_mapM {rnd : ℚ → ℚ} {moeThreshold : Bytes32 → Except String Bytes32}
    {runs : List AiRunRecord} {entries : List AiLeaderboardEntry}
    (h : runs.mapM (toAiEntry rnd moeThreshold) = some entries) :
    entries.map AiLeaderboardEntry.run = runs := by
  induction runs generalizing entries with
  | nil => cases h; rfl
  | cons r runs ih =>
    rw [List.mapM_cons] at h
    obtain ⟨e, he, h⟩ := Option.bind_eq_some_iff.mp h
    obtain ⟨es, hes, h⟩ := Option.bind_eq_some_iff.mp h
    cases h
    obtain ⟨_, -, rfl⟩ := Option.map_eq_some_iff.mp he
    rw [List.map_cons, ih hes]

theorem ids_aiLeaderboard {rnd : ℚ → ℚ} {moeThreshold : Bytes32 → Except String Bytes32}
    {s : AiStore} {listed : List AiLeaderboardEntry}
    (hl : aiLeaderboard rnd moeThreshold s = some listed) :
    (listed.map fun e => e.run.id).Perm (s.runs.map AiRunRecord.id) := by
  obtain ⟨stored, hstored, rfl⟩ := Option.map_eq_some_iff.mp hl
  rw [← runs_of_mapM hstored, List.map_map]
  exact (Kit.Ranking.rank_perm _ _).map _

theorem mem_aiLeaderboard {rnd : ℚ → ℚ} {moeThreshold : Bytes32 → Except String Bytes32}
    {s : AiStore} {listed : List AiLeaderboardEntry}
    (hl : aiLeaderboard rnd moeThreshold s = some listed) :
    (∀ r ∈ s.runs, ∃ e ∈ listed, toAiEntry rnd moeThreshold r = some e) ∧
      ∀ e ∈ listed, e.run ∈ s.runs ∧ toAiEntry rnd moeThreshold e.run = some e := by
  obtain ⟨stored, hstored, rfl⟩ := Option.map_eq_some_iff.mp hl
  have hperm : ∀ e, e ∈ Kit.Ranking.rank (fun e => e.rates.verifiedMacPerSecLb) stored ↔
      e ∈ stored := fun e => (Kit.Ranking.rank_perm _ _).mem_iff
  refine ⟨?_, ?_⟩
  · intro r hr
    obtain ⟨e, he, hre⟩ := exists_of_mapM hstored hr
    exact ⟨e, (hperm e).mpr he, hre⟩
  · intro e he
    obtain ⟨r, hr, hre⟩ := mem_of_mapM hstored ((hperm e).mp he)
    have hrun : e.run = r := by
      obtain ⟨_, -, rfl⟩ := Option.map_eq_some_iff.mp hre
      rfl
    exact ⟨hrun ▸ hr, hrun ▸ hre⟩

/-- Whatever is recorded, torn, lost in a crash and loaded again: the runs of the live store have
ascending ids, so that no two rows of the board share one, and the route finds a row exactly if the
board has one of that id, and then that row. -/
theorem ai_run_by_id_row {J : SerdeJson} (hJ : J.RejectsTorn) {w : World}
    (h : (history J).Reach (CutShort J) w) {s : AiStore} (hs : w.live = some s) (rnd : ℚ → ℚ)
    (moeThreshold : Bytes32 → Except String Bytes32) {listed : List AiLeaderboardEntry}
    (hl : aiLeaderboard rnd moeThreshold s = some listed) :
    (s.runs.map AiRunRecord.id).Pairwise (· < ·) ∧ (∀ r ∈ s.runs, r.id < s.nextId) ∧
      (listed.map fun e => e.run.id).Nodup ∧
      ∀ id : UInt64,
        (∀ e, aiRunById rnd moeThreshold s id = some (some e) ↔
          e ∈ listed ∧ e.run.id = id.toNat) ∧
        (aiRunById rnd moeThreshold s id = some none ↔ ∀ e ∈ listed, e.run.id ≠ id.toNat) := by
  obtain ⟨j, hj⟩ := reach_journaled h
  obtain ⟨hnum, -, -⟩ := (numbered_of_reach hJ hj).live s hs
  have hnodup : (s.runs.map AiRunRecord.id).Nodup := hnum.ascend.imp fun hlt => hlt.ne
  refine ⟨hnum.ascend, fun r hr => hnum.below _ (List.mem_map_of_mem hr),
    (ids_aiLeaderboard hl).nodup_iff.mpr hnodup, ?_⟩
  intro id
  obtain ⟨hrow, hrun⟩ := mem_aiLeaderboard hl
  cases hf : s.runs.find? (fun r => r.id = id.toNat) with
  | none =>
    have hno : ∀ e ∈ listed, e.run.id ≠ id.toNat := by
      intro e he heq
      have := List.find?_eq_none.mp hf _ (hrun e he).1
      simp [heq] at this
    simp only [aiRunById, hf]
    refine ⟨?_, ?_⟩
    · intro e
      simp only [Option.some.injEq, reduceCtorEq, false_iff, not_and]
      exact hno e
    · simpa using hno
  | some r =>
    obtain ⟨hr, hid⟩ := (Kit.Keyed.find?_eq_some_iff hnodup).mp hf
    obtain ⟨e, he, hre⟩ := hrow r hr
    have her : e.run = r := by
      obtain ⟨_, -, rfl⟩ := Option.map_eq_some_iff.mp hre
      rfl
    simp only [aiRunById, hf, hre, Option.map_some, Option.some.injEq, reduceCtorEq, false_iff]
    refine ⟨?_, ?_⟩
    · intro e'
      constructor
      · rintro rfl
        exact ⟨he, her ▸ hid⟩
      · rintro ⟨he', hid'⟩
        obtain ⟨hr', hre'⟩ := hrun e' he'
        have heq : e'.run = r := List.inj_on_of_nodup_map hnodup hr' hr (hid'.trans hid.symm)
        rw [heq, hre] at hre'
        exact Option.some.inj hre'
    · intro hno
      exact hno e he (her ▸ hid)

def denseRun (nonce : UInt64) : Submission :=
  ⟨nonce, .dense, "m1-max", "0.1.0", .fill 32 0xff, 900, [3, 9]⟩

/-- A commit stops after three bytes, and the next one runs into it. -/
def tornRuns : List Op :=
  [.record .written false 7 1000 none, .commit (.failed (some 3)) false (denseRun 7) 1500,
    .commit .written false (denseRun 7) 1600]

def tornWorld : World := (history .compact).run World.init tornRuns

def tornRun : AiRunRecord :=
  ⟨1, 7, "m1-max", "0.1.0", .dense, 2, hex32 (.fill 32 0xff), 900, [3, 9], 1000, 1600⟩

theorem reach_tornWorld : (history .compact).Reach (CutShort .compact) tornWorld := by
  refine Kit.Machine.Reach.run .init ⟨?_, ?_, ?_, trivial⟩
  · intro s n crash e _ he
    cases he
  · intro s n crash e _ he
    obtain ⟨p, -, ha, -, rfl⟩ := event?_commit he
    cases ha
    obtain ⟨m, t, hv, hp⟩ := print_value (.run (newRun s (denseRun 7) p 1500))
    have hline : lineOf .compact (.run (newRun s (denseRun 7) p 1500)) =
        0x7B :: 0x22 :: 0x65 :: (Kit.Utf8.encode t ++ [0x0A]) := by
      rw [lineOf, hv]
      exact congrArg (Kit.Utf8.encode · ++ [0x0A]) hp
    rw [hline]
    simp
  · intro s n crash e _ he
    obtain ⟨p, -, ha, -, -⟩ := event?_commit he
    cases ha

theorem ai_run_by_id_row_tornWorld :
    ∃ s, tornWorld.live = some s ∧ aiRunById id Tock.scaledThreshold s 2 = some none ∧
      ∃ e, aiRunById id Tock.scaledThreshold s 1 = some (some e) ∧ e.run = tornRun := by
  have hruns : tornWorld.live.map AiStore.runs = some [tornRun] := by decide +kernel
  obtain ⟨s, hs, hr⟩ := Option.map_eq_some_iff.mp hruns
  have hparse : parseHex32 tornRun.target = some (.ok (.fill 32 0xff)) := Tock.parseHex32_hex32 _
  have hentry : ∃ e, toAiEntry id Tock.scaledThreshold tornRun = some e ∧ e.run = tornRun := by
    rw [toAiEntry, hparse]
    exact ⟨_, rfl, rfl⟩
  obtain ⟨e, he, hrun⟩ := hentry
  have hl : aiLeaderboard id Tock.scaledThreshold s = some [e] := by
    rw [aiLeaderboard, aiBoard, hr, List.mapM_cons, he]
    exact congrArg some (Kit.Ranking.rank_of_pairwise (List.pairwise_singleton _ _))
  obtain ⟨-, -, -, hrow⟩ := ai_run_by_id_row compact_rejectsTorn reach_tornWorld hs id
    Tock.scaledThreshold hl
  refine ⟨s, hs, (hrow 2).2.mpr ?_, e, ((hrow 1).1 e).mpr ⟨by simp, ?_⟩, hrun⟩
  · simp [hrun, tornRun]
  · rw [hrun]
    rfl

end Registry
end Nockmark
