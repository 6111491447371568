import Nockmark.Registry.Torn

/-!
# Registry.Durable

Does an acknowledged event survive?

An append after a torn one goes onto the same line, and `load` skips that line with both of them.
So it depends on what the file ends with when a line is written:

* `CleanTail`: a line that is acknowledged starts at the beginning of the file or after a newline.
  `CharCut`: a torn append stops between characters, so that the file is still text.
* `acked_present`: then the file always loads, and every acknowledged event is there, in memory and
  after the load.
* `acked_then_lost`: a torn append, an acknowledged one, and a load that knows neither.
-/

namespace Nockmark
namespace Registry

/-- A challenge is pending or used. A run is stored, and its nonce is taken at any time. -/
def Present (s : AiStore) : Event → Prop
  | .challenge nonce _ => (s.pending.lookup nonce).isSome ∨ nonce ∈ s.used
  | .run r => r ∈ s.runs ∧ ∀ nowMs, challengeStatus s r.nonce nowMs = .error "nonce-used"

theorem nonceUsed_iff {s : AiStore} {nonce : UInt64} :
    (∀ nowMs, challengeStatus s nonce nowMs = .error "nonce-used") ↔ nonce ∈ s.used := by
  constructor
  · intro h
    by_contra hu
    have h0 := h 0
    rw [challengeStatus, if_neg hu] at h0
    split at h0
    · simp at h0
    · split at h0
      · simp at h0
      · cases h0
  · intro hu nowMs
    rw [challengeStatus, if_pos hu]

theorem present_apply_self (s : AiStore) (e : Event) : Present (s.apply e) e := by
  cases e with
  | challenge nonce p => exact .inl (by simp [AiStore.apply, Finmap.lookup_insert])
  | run r => exact ⟨by simp [AiStore.apply], nonceUsed_iff.mpr (Finset.mem_insert_self _ _)⟩

theorem Present.apply {s : AiStore} {e : Event} (h : Present s e) (e' : Event) :
    Present (s.apply e') e := by
  cases e with
  | challenge nonce p =>
    cases e' with
    | challenge nonce' p' =>
      rcases h with h | h
      · left
        by_cases hn : nonce = nonce'
        · subst hn; simp [AiStore.apply, Finmap.lookup_insert]
        · rw [AiStore.apply, Finmap.lookup_insert_of_ne _ hn]; exact h
      · exact .inr h
    | run r =>
      by_cases hn : nonce = r.nonce
      · subst hn; exact .inr (Finset.mem_insert_self _ _)
      · rcases h with h | h
        · left; rw [AiStore.apply, Finmap.lookup_erase_ne hn]; exact h
        · exact .inr (Finset.mem_insert_of_mem h)
  | run r =>
    obtain ⟨hr, hu⟩ := h
    rw [nonceUsed_iff] at hu
    cases e' with
    | challenge nonce' p' => exact ⟨hr, nonceUsed_iff.mpr hu⟩
    | run r' =>
      exact ⟨List.mem_append_left _ hr, nonceUsed_iff.mpr (Finset.mem_insert_of_mem hu)⟩

theorem present_replay {es : List Event} {e : Event} (h : e ∈ es) : Present (replay es) e := by
  induction es using List.reverseRecOn with
  | nil => cases h
  | append_singleton es e' ih =>
    rw [replay_append]
    rcases List.mem_append.mp h with h | h
    · exact (ih h).apply e'
    · rw [List.mem_singleton.mp h]
      exact present_apply_self _ _

/-! ### Lines that stand by themselves -/

def EndsLine (bytes : List UInt8) : Prop := bytes = [] ∨ ∃ pre, bytes = pre ++ [0x0A]

/-- The file has the event's line on a line of its own. -/
def Kept (J : SerdeJson) (disk : Disk) (e : Event) : Prop :=
  ∃ pre post, disk.getD [] = pre ++ lineOf J e ++ post ∧ EndsLine pre

theorem Kept.append {J : SerdeJson} {disk : Disk} {e : Event} (h : Kept J disk e) (a : Append)
    (e' : Event) : Kept J (append J a disk e') e := by
  obtain ⟨pre, post, hd, hpre⟩ := h
  cases a with
  | written => exact ⟨pre, post ++ lineOf J e', by simp [Registry.append, hd], hpre⟩
  | failed n =>
    cases n with
    | none => exact ⟨pre, post, hd, hpre⟩
    | some n => exact ⟨pre, post ++ (lineOf J e').take n, by simp [Registry.append, hd], hpre⟩

theorem Kept.mem_lines {J : SerdeJson} {disk : Disk} {e : Event} (h : Kept J disk e)
    {text : List Char} (ht : disk.getD [] = Kit.Utf8.encode text) :
    J.print e.value ∈ Kit.Lines.lines text := by
  obtain ⟨pre, post, hd, hpre⟩ := h
  -- the line, read from its start
  have hline : ∀ {cs : List Char}, Kit.Utf8.encode cs = lineOf J e ++ post →
      J.print e.value ∈ Kit.Lines.lines cs := by
    intro cs hcs
    rw [lineOf, List.append_assoc, List.singleton_append] at hcs
    obtain ⟨cs₁, cs₂, rfl, h1, -⟩ := Kit.Utf8.encode_split_newline hcs
    rw [Kit.Utf8.encode_injective h1,
      Kit.Lines.lines_line (J.print_one_line _ (canonical_value e))]
    exact List.mem_cons_self
  rw [ht, List.append_assoc] at hd
  rcases hpre with rfl | ⟨pre, rfl⟩
  · exact hline hd
  · rw [List.append_assoc, List.singleton_append] at hd
    obtain ⟨cs₁, cs₂, rfl, -, h2⟩ := Kit.Utf8.encode_split_newline hd
    rw [Kit.Lines.lines_append]
    exact List.mem_append_right _ (hline h2)

/-! ### Histories -/

/-- A line that will be acknowledged is written at the start of a line. -/
def CleanTail (w : World) (op : Op) : Prop :=
  ∀ s e, w.live = some s → op.event? s = some (.written, false, e) → EndsLine (w.disk.getD [])

/-- An append that stops early stops between characters. -/
def CharCut (J : SerdeJson) (w : World) (op : Op) : Prop :=
  ∀ s n crash e, w.live = some s → op.event? s = some (.failed (some n), crash, e) →
    ∃ q, (lineOf J e).take n = Kit.Utf8.encode q

structure Durable (J : SerdeJson) (w : World) : Prop where
  pieces : Pieces J (fun _ => True) w.disk
  text : ∃ cs, w.disk.getD [] = Kit.Utf8.encode cs
  kept : ∀ e ∈ w.acked, Kept J w.disk e
  live : ∀ s, w.live = some s → ∀ e ∈ w.acked, Present s e

theorem Durable.init (J : SerdeJson) : Durable J World.init :=
  ⟨Pieces.none J _, ⟨[], rfl⟩, fun _ he => (by cases he), fun _ _ _ he => (by cases he)⟩

theorem Durable.load {J : SerdeJson} (hJ : J.RejectsTorn) {w : World} (h : Durable J w) :
    ∃ s, load J w.disk = .ok s ∧ ∀ e ∈ w.acked, Present s e := by
  obtain ⟨text, ht⟩ := h.text
  obtain ⟨es, hload, -, hmem⟩ := h.pieces.load hJ ht
  exact ⟨_, hload, fun e he => present_replay (hmem e ((h.kept e he).mem_lines ht))⟩

theorem text_append {J : SerdeJson} {disk : Disk} {a : Append} {e : Event}
    (h : ∃ cs, disk.getD [] = Kit.Utf8.encode cs)
    (hcut : ∀ n, a = .failed (some n) → ∃ q, (lineOf J e).take n = Kit.Utf8.encode q) :
    ∃ cs, (append J a disk e).getD [] = Kit.Utf8.encode cs := by
  obtain ⟨cs, hd⟩ := h
  cases a with
  | written =>
    exact ⟨cs ++ (J.print e.value ++ ['\n']), by
      rw [append, Option.getD_some, hd, lineOf_eq, Kit.Utf8.encode_append cs]⟩
  | failed n =>
    cases n with
    | none => exact ⟨cs, hd⟩
    | some n =>
      obtain ⟨q, hq⟩ := hcut n rfl
      exact ⟨cs ++ q, by rw [append, Option.getD_some, hd, hq, Kit.Utf8.encode_append]⟩

theorem Durable.step {J : SerdeJson} (hJ : J.RejectsTorn) {w : World} (h : Durable J w) {op : Op}
    (hclean : CleanTail w op) (hcut : CharCut J w op) : Durable J (w.step J op) := by
  obtain ⟨hd, ha, hl⟩ | ⟨s, a, crash, e, hs, he, hstep⟩ | ⟨hd, ha, s, hload, hl⟩ :=
    step_cases J w op
  · refine ⟨hd ▸ h.pieces, hd ▸ h.text, hd ▸ ha ▸ h.kept, ?_⟩
    intro s hs
    rcases hl with hl | hl
    · exact ha ▸ h.live s (hl ▸ hs)
    · rw [hl] at hs; cases hs
  · rw [hstep]
    refine ⟨h.pieces.append trivial a,
      text_append h.text fun n hn => hcut s n crash e hs (hn ▸ he), ?_, ?_⟩
    · intro e' he'
      simp only [World.appended] at he'
      split at he'
      · -- the new acknowledgement: its line was written at the start of a line
        rename_i hok
        rcases List.mem_cons.mp he' with rfl | he'
        · cases a with
          | written =>
            cases crash with
            | true => cases hok
            | false =>
              exact ⟨w.disk.getD [], [], by simp [World.appended, append], hclean s _ hs he⟩
          | failed n => cases hok
        · exact (h.kept e' he').append a e
      · exact (h.kept e' he').append a e
    · intro s' hs' e' he'
      cases crash with
      | true => cases hs'
      | false =>
        cases hs'
        cases a with
        | written =>
          rcases List.mem_cons.mp he' with rfl | he'
          · exact present_apply_self _ _
          · exact (h.live s hs e' he').apply e
        | failed n => exact h.live s hs e' he'
  · refine ⟨hd ▸ h.pieces, hd ▸ h.text, hd ▸ ha ▸ h.kept, ?_⟩
    intro s' hs'
    rw [hl] at hs'
    cases hs'
    obtain ⟨s', hload', hp⟩ := h.load hJ
    rw [hload] at hload'
    cases hload'
    exact ha ▸ hp

/-- Durability, for histories that never write an acknowledged line after a torn one, nor cut a
character: the file loads, and each acknowledged event is present in memory and in what is
loaded. -/
theorem acked_present {J : SerdeJson} (hJ : J.RejectsTorn) {w : World}
    (h : (history J).Reach (fun w op => CleanTail w op ∧ CharCut J w op) w) {e : Event}
    (he : e ∈ w.acked) :
    (∀ s, w.live = some s → Present s e) ∧ ∃ s, load J w.disk = .ok s ∧ Present s e := by
  have hd : Durable J w := h.inv (Durable.init J) (fun _ _ hd hg => hd.step hJ hg.1 hg.2)
  obtain ⟨s, hload, hp⟩ := hd.load hJ
  exact ⟨fun s hs => hd.live s hs e he, s, hload, hp e he⟩

/-- Five bytes of the line of nonce 7, and the whole line of nonce 9. -/
def tornMint : Op := .record (.failed (some 5)) false 7 1000 none

def ackedMint : Op := .record .written false 9 2000 none

theorem acked_present_tornMint :
    ∃ s, load .compact ((history .compact).run World.init [ackedMint, tornMint]).disk = .ok s ∧
      Present s (.challenge 9 ⟨2000, none⟩) := by
  have h : (history .compact).Reach (fun w op => CleanTail w op ∧ CharCut .compact w op)
      ((history .compact).run World.init [ackedMint, tornMint]) := by
    refine Kit.Machine.Reach.run .init ⟨⟨?_, ?_⟩, ⟨?_, ?_⟩, trivial⟩
    · exact fun _ _ _ _ => .inl rfl
    · intro s n crash e _ he
      cases he
    · intro s e _ he
      cases he
    · intro s n crash e _ he
      cases he
      exact ⟨['{', '"', 'e', 'v', '"'], by decide⟩
  exact (acked_present compact_rejectsTorn h (List.mem_singleton.mpr rfl)).2

/-- The other way round, the acknowledged line runs into the torn one, and after a restart the
challenge is neither pending nor used. -/
theorem acked_then_lost :
    ¬ ∀ w, (history .compact).Reach Kit.Machine.free w → ∀ e ∈ w.acked,
      ∀ s, w.live = some s → Present s e := by
  intro h
  have hr := Kit.Machine.reach_run_free (history .compact) [tornMint, ackedMint, .restart]
  have hacked : .challenge 9 ⟨2000, none⟩ ∈
      ((history .compact).run World.init [tornMint, ackedMint, .restart]).acked := by
    decide +kernel
  have hlive : ((history .compact).run World.init [tornMint, ackedMint, .restart]).live.map
      (fun s => (s.pending.lookup 9, decide (9 ∈ s.used))) = some (none, false) := by
    decide +kernel
  obtain ⟨s, hs, heq⟩ := Option.map_eq_some_iff.mp hlive
  simp only [Prod.mk.injEq, decide_eq_false_iff_not] at heq
  rcases h _ hr _ hacked s hs with hp | hp
  · rw [heq.1] at hp
    cases hp
  · exact heq.2 hp

end Registry
end Nockmark
