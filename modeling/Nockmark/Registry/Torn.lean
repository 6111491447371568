import Nockmark.Kit.JsonScan
import Nockmark.Registry.History

/-!
# Registry.Torn

The log of a process whose appends may stop anywhere: the file is a sequence of pieces of event
lines, and what a load makes of it.

* `SerdeJson.RejectsTorn`: the parser takes no text that was cut short or that runs into the next
  one. `compact_rejectsTorn`: compact JSON is like that.
* `load_pieces`: a file of pieces loads as the replay of those of its events whose line stands by
  itself, unless a piece ends within a character.
* `Pieces`: such a file; `Pieces.append`: every append, torn or not, keeps it one.
-/

namespace Nockmark
namespace Registry

open Kit.Json (Value Members)

/-- What `load` relies on where it skips torn writes. -/
structure SerdeJson.RejectsTorn (J : SerdeJson) : Prop where
  opens : ∀ e : Event, ∃ t, J.print e.value = '{' :: t
  cut : ∀ (e : Event) (p : List Char), p <+: J.print e.value → p ≠ J.print e.value →
    J.parse p = none
  joined : ∀ (p q : List Char) (ps : List (List Char)),
    (∀ r ∈ p :: q :: ps, r ≠ [] ∧ ∃ e : Event, r <+: J.print e.value) →
    J.parse (p :: q :: ps).flatten = none

/-- An event is an object whose first key is `ev`. -/
theorem value_eq (e : Event) : ∃ v m, e.value = .obj (.cons "ev" v m) := by
  cases e with
  | challenge nonce p =>
    obtain ⟨t, target⟩ := p
    have h0 : Members.insert "ev" (Value.str "challenge") .nil =
      .cons "ev" (.str "challenge") .nil := rfl
    have h1 : ("ev" : String) < "nonce" := by decide
    have h2 : ("ev" : String) < "issued_at_ms" := by decide
    have h3 : ("ev" : String) < "target" := by decide
    cases target with
    | none =>
      simp only [Event.value, Members.ofList, List.foldl_cons, List.foldl_nil, h0,
        Members.insert_later h1, Members.insert_later h2]
      exact ⟨_, _, rfl⟩
    | some target =>
      simp only [Event.value, Members.ofList, List.foldl_cons, List.foldl_nil, h0,
        Members.insert_later h1, Members.insert_later h2, Members.insert_later h3]
      exact ⟨_, _, rfl⟩
  | run r =>
    rw [Event.value, AiRunRecord.members, Members.insert_ofList]
    · exact ⟨_, _, rfl⟩
    · simp only [List.forall_mem_cons]
      decide

theorem print_value (e : Event) : ∃ m t, e.value = .obj m ∧
    Kit.Json.print (.obj m) = '{' :: '"' :: 'e' :: t := by
  obtain ⟨v, m, h⟩ := value_eq e
  exact ⟨_, _, h, rfl⟩

theorem keyed_value (e : Event) : Kit.Json.Keyed (Kit.Json.print e.value) := by
  obtain ⟨m, t, hv, hp⟩ := print_value e
  rw [hv]
  exact ⟨m, 'e', t, rfl, hp, fun _ => rfl⟩

theorem compact_rejectsTorn : SerdeJson.compact.RejectsTorn where
  opens e := by
    obtain ⟨m, t, hv, hp⟩ := print_value e
    exact ⟨_, hv ▸ hp⟩
  cut e p hp hne := by
    obtain ⟨m, t, hv, -⟩ := print_value e
    have hp' : p <+: Kit.Json.print (.obj m) := hv ▸ hp
    exact Kit.Json.parse_cut hp' (fun h => hne (by rw [h, ← hv]; rfl))
  joined p q ps h := by
    apply Kit.Json.parse_joined
    intro r hr
    obtain ⟨h0, e, he⟩ := h r hr
    exact ⟨h0, _, keyed_value e, he⟩

/-! ### Pieces of lines -/

/-- Some of the first bytes of the line of an event that satisfies `P`. -/
def BytePiece (J : SerdeJson) (P : Event → Prop) (b : List UInt8) : Prop :=
  b ≠ [] ∧ ∃ e, P e ∧ b <+: lineOf J e

def Piece (J : SerdeJson) (P : Event → Prop) (q : List Char) : Prop :=
  q ≠ [] ∧ ∃ e, P e ∧ q <+: J.print e.value ++ ['\n']

/-- A piece that does not reach the newline. -/
def Cut (J : SerdeJson) (P : Event → Prop) (p : List Char) : Prop :=
  p ≠ [] ∧ ∃ e, P e ∧ p <+: J.print e.value

theorem lineOf_eq (J : SerdeJson) (e : Event) :
    lineOf J e = Kit.Utf8.encode (J.print e.value ++ ['\n']) := by
  rw [Kit.Utf8.encode_append]
  rfl

theorem BytePiece.head {J : SerdeJson} (hJ : J.RejectsTorn) {P : Event → Prop} {b : List UInt8}
    (h : BytePiece J P b) : ∃ t, b = 0x7B :: t := by
  obtain ⟨h0, e, -, r, hr⟩ := h
  obtain ⟨t, ht⟩ := hJ.opens e
  have hl : lineOf J e = 0x7B :: Kit.Utf8.encode (t ++ ['\n']) := by rw [lineOf_eq, ht]; rfl
  obtain ⟨c, b', rfl⟩ := List.exists_cons_of_ne_nil h0
  rw [hl, List.cons_append, List.cons.injEq] at hr
  exact ⟨b', by rw [hr.1]⟩

/-- Where the bytes are text, each piece of them is a piece of text: the byte after it opens a
line, and is a character. -/
theorem pieces_of_encode {J : SerdeJson} (hJ : J.RejectsTorn) {P : Event → Prop}
    {bs : List (List UInt8)} (hbs : ∀ b ∈ bs, BytePiece J P b) {text : List Char}
    (h : Kit.Utf8.encode text = bs.flatten) :
    ∃ qs : List (List Char), text = qs.flatten ∧ ∀ q ∈ qs, Piece J P q := by
  induction bs generalizing text with
  | nil => exact ⟨[], Kit.Utf8.encode_injective h, by simp⟩
  | cons b bs ih =>
    obtain ⟨h0, e, he, hpre⟩ := hbs b List.mem_cons_self
    have hrest : ∀ b ∈ bs, BytePiece J P b := fun b hb => hbs b (List.mem_cons_of_mem _ hb)
    have hsplit : ∃ q rest, text = q ++ rest ∧ Kit.Utf8.encode q = b ∧
        Kit.Utf8.encode rest = bs.flatten := by
      cases bs with
      | nil => exact ⟨text, [], by simp, by simpa using h, rfl⟩
      | cons b' bs =>
        obtain ⟨t, rfl⟩ := (hrest b' List.mem_cons_self).head hJ
        obtain ⟨q, c, cs, rfl, hq, hc, hcs⟩ :=
          @Kit.Utf8.encode_split text _ (t ++ bs.flatten) 0x7B (by decide) h
        exact ⟨q, c :: cs, rfl, hq, by rw [Kit.Utf8.encode_cons, hc, hcs]; rfl⟩
    obtain ⟨q, rest, rfl, hq, hr⟩ := hsplit
    obtain ⟨qs, rfl, hqs⟩ := ih hrest hr
    refine ⟨q :: qs, rfl, ?_⟩
    intro p hp
    rcases List.mem_cons.mp hp with rfl | hp
    · refine ⟨by rintro rfl; exact h0 hq.symm, e, he, ?_⟩
      apply Kit.Utf8.prefix_of_encode_prefix
      rw [hq, ← lineOf_eq]
      exact hpre
    · exact hqs p hp

theorem Cut.one_line {J : SerdeJson} {P : Event → Prop} {p : List Char} (h : Cut J P p) :
    ∀ c ∈ p, c ≠ '\n' ∧ c ≠ '\r' := by
  obtain ⟨-, e, -, hp⟩ := h
  exact fun c hc => J.print_one_line _ (canonical_value e) c (hp.subset hc)

theorem flatten_one_line {J : SerdeJson} {P : Event → Prop} {ps : List (List Char)}
    (h : ∀ p ∈ ps, Cut J P p) : ∀ c ∈ ps.flatten, c ≠ '\n' ∧ c ≠ '\r' := by
  intro c hc
  obtain ⟨p, hp, hcp⟩ := List.mem_flatten.mp hc
  exact (h p hp).one_line c hcp

/-- Every line of a text of pieces is made of cuts: those that stand before a newline. -/
theorem line_of_pieces {J : SerdeJson} (hJ : J.RejectsTorn) {P : Event → Prop}
    {qs : List (List Char)} (hqs : ∀ q ∈ qs, Piece J P q) {ps : List (List Char)}
    (hps : ∀ p ∈ ps, Cut J P p) {line : List Char}
    (h : line ∈ Kit.Lines.lines (ps.flatten ++ qs.flatten)) :
    ∃ cs : List (List Char), line = cs.flatten ∧ ∀ p ∈ cs, Cut J P p := by
  induction qs generalizing ps with
  | nil =>
    rw [List.flatten_nil, List.append_nil] at h
    by_cases h0 : ps.flatten = []
    · rw [h0] at h; cases h
    · rw [Kit.Lines.lines_last (fun e => (flatten_one_line hps _ e).1 rfl) h0] at h
      exact ⟨ps, List.mem_singleton.mp h, hps⟩
  | cons q qs ih =>
    obtain ⟨h0, e, he, hq⟩ := hqs q List.mem_cons_self
    have hrest : ∀ q ∈ qs, Piece J P q := fun q hq => hqs q (List.mem_cons_of_mem _ hq)
    rcases List.prefix_concat_iff.mp hq with rfl | hcut
    · -- the piece is a whole line and ends the one before it
      obtain ⟨t, ht⟩ := hJ.opens e
      have hps' : ∀ p ∈ ps ++ [J.print e.value], Cut J P p := by
        refine List.forall_mem_append.mpr ⟨hps, List.forall_mem_singleton.mpr ?_⟩
        exact ⟨by simp [ht], e, he, List.prefix_refl _⟩
      rw [List.flatten_cons, List.append_assoc, ← List.append_assoc,
        show ps.flatten ++ J.print e.value = (ps ++ [J.print e.value]).flatten by simp,
        List.singleton_append, Kit.Lines.lines_line (flatten_one_line hps')] at h
      rcases List.mem_cons.mp h with rfl | h
      · exact ⟨_, rfl, hps'⟩
      · exact ih hrest (List.forall_mem_nil (Cut J P)) h
    · have hps' : ∀ p ∈ ps ++ [q], Cut J P p :=
        List.forall_mem_append.mpr ⟨hps, List.forall_mem_singleton.mpr ⟨h0, e, he, hcut⟩⟩
      refine ih hrest hps' ?_
      rw [List.flatten_append, List.flatten_singleton, List.append_assoc]
      exact h

/-! ### What a load makes of them -/

/-- A line of cuts parses only if it is one whole event. -/
theorem parse_line {J : SerdeJson} (hJ : J.RejectsTorn) {P : Event → Prop} {cs : List (List Char)}
    (hcs : ∀ p ∈ cs, Cut J P p) :
    J.parse cs.flatten = none ∨ ∃ e, P e ∧ cs.flatten = J.print e.value := by
  cases cs with
  | nil =>
    left
    obtain ⟨t, ht⟩ := hJ.opens (.challenge 0 ⟨0, none⟩)
    exact hJ.cut (.challenge 0 ⟨0, none⟩) [] List.nil_prefix (by simp [ht])
  | cons p cs =>
    cases cs with
    | nil =>
      obtain ⟨-, e, he, hp⟩ := hcs p List.mem_cons_self
      rw [List.flatten_singleton]
      by_cases hne : p = J.print e.value
      · exact .inr ⟨e, he, hne⟩
      · exact .inl (hJ.cut e p hp hne)
    | cons q cs =>
      left
      apply hJ.joined
      intro r hr
      obtain ⟨h0, e, -, hp⟩ := hcs r hr
      exact ⟨h0, e, hp⟩

theorem print_injective {J : SerdeJson} {e e' : Event} (h : J.print e.value = J.print e'.value) :
    e = e' := by
  have hv := J.parse_print _ (canonical_value e)
  rw [h, J.parse_print _ (canonical_value e')] at hv
  have := readEvent_value e
  rw [← Option.some.inj hv, readEvent_value] at this
  exact (Option.some.inj (Option.some.inj this)).symm

theorem foldlM_lines {J : SerdeJson} {P : Event → Prop} {ls : List (List Char)}
    (h : ∀ line ∈ ls, J.parse line = none ∨ ∃ e, P e ∧ line = J.print e.value) :
    ∃ es : List Event, (∀ e ∈ es, P e) ∧ (∀ e : Event, J.print e.value ∈ ls → e ∈ es) ∧
      ∀ s, ls.foldlM (replayLine J) s = some (es.foldl AiStore.apply s) := by
  induction ls with
  | nil => exact ⟨[], by simp, by simp, fun _ => rfl⟩
  | cons line ls ih =>
    obtain ⟨es, hP, hmem, hfold⟩ := ih fun l hl => h l (List.mem_cons_of_mem _ hl)
    rcases h line List.mem_cons_self with hn | ⟨e, he, rfl⟩
    · refine ⟨es, hP, ?_, ?_⟩
      · intro e he
        rcases List.mem_cons.mp he with rfl | he
        · rw [J.parse_print _ (canonical_value e)] at hn
          cases hn
        · exact hmem e he
      · intro s
        rw [List.foldlM_cons, replayLine, hn]
        exact hfold s
    · refine ⟨e :: es, by simp [he]; exact hP, ?_, ?_⟩
      · intro e' he'
        rcases List.mem_cons.mp he' with heq | he'
        · rw [print_injective heq]
          exact List.mem_cons_self
        · exact List.mem_cons_of_mem _ (hmem e' he')
      · intro s
        rw [List.foldlM_cons, replayLine_print]
        exact hfold _

/-- A file of pieces whose bytes are text loads as the replay of events among them, and of each
whose whole line is a line of the file. -/
theorem load_pieces {J : SerdeJson} (hJ : J.RejectsTorn) {P : Event → Prop}
    {bs : List (List UInt8)} (hbs : ∀ b ∈ bs, BytePiece J P b) {text : List Char}
    (ht : Kit.Utf8.encode text = bs.flatten) :
    ∃ es : List Event, load J (some bs.flatten) = .ok (replay es) ∧ (∀ e ∈ es, P e) ∧
      ∀ e : Event, J.print e.value ∈ Kit.Lines.lines text → e ∈ es := by
  obtain ⟨qs, rfl, hqs⟩ := pieces_of_encode hJ hbs ht
  have hlines : ∀ line ∈ Kit.Lines.lines qs.flatten,
      J.parse line = none ∨ ∃ e, P e ∧ line = J.print e.value := by
    intro line hl
    obtain ⟨cs, rfl, hcs⟩ := line_of_pieces hJ hqs (List.forall_mem_nil (Cut J P)) hl
    exact parse_line hJ hcs
  obtain ⟨es, hP, hmem, hfold⟩ := foldlM_lines hlines
  refine ⟨es, ?_, hP, hmem⟩
  rw [← ht, load]
  simp only [Kit.Utf8.decode?_encode, hfold]
  rfl

/-- The file is a sequence of pieces of the lines of events that satisfy `P`. -/
def Pieces (J : SerdeJson) (P : Event → Prop) (disk : Disk) : Prop :=
  ∃ bs : List (List UInt8), disk.getD [] = bs.flatten ∧ ∀ b ∈ bs, BytePiece J P b

theorem Pieces.none (J : SerdeJson) (P : Event → Prop) : Pieces J P none := ⟨[], rfl, by simp⟩

theorem Pieces.append {J : SerdeJson} {P : Event → Prop} {disk : Disk} (h : Pieces J P disk)
    {e : Event} (he : P e) (a : Append) : Pieces J P (append J a disk e) := by
  obtain ⟨bs, hd, hbs⟩ := h
  have hadd : ∀ b, b <+: lineOf J e → Pieces J P (some (disk.getD [] ++ b)) := by
    intro b hb
    by_cases h0 : b = []
    · subst h0
      exact ⟨bs, by simpa using hd, hbs⟩
    · refine ⟨bs ++ [b], by simp [hd], ?_⟩
      exact List.forall_mem_append.mpr ⟨hbs, List.forall_mem_singleton.mpr ⟨h0, e, he, hb⟩⟩
  cases a with
  | written => exact hadd _ (List.prefix_refl _)
  | failed n =>
    cases n with
    | none => exact ⟨bs, hd, hbs⟩
    | some n => exact hadd _ (List.take_prefix _ _)

theorem Pieces.load {J : SerdeJson} (hJ : J.RejectsTorn) {P : Event → Prop} {disk : Disk}
    (h : Pieces J P disk) {text : List Char} (ht : disk.getD [] = Kit.Utf8.encode text) :
    ∃ es : List Event, load J disk = .ok (replay es) ∧ (∀ e ∈ es, P e) ∧
      ∀ e : Event, J.print e.value ∈ Kit.Lines.lines text → e ∈ es := by
  obtain ⟨bs, hd, hbs⟩ := h
  cases disk with
  | none =>
    have h0 : text = [] := Kit.Utf8.encode_injective ht.symm
    subst h0
    exact ⟨[], rfl, by simp, fun e he => by cases he⟩
  | some bytes =>
    rw [Option.getD_some] at hd ht
    obtain ⟨es, hload, hP, hmem⟩ := load_pieces hJ hbs (ht.symm.trans hd)
    exact ⟨es, hd ▸ hload, hP, hmem⟩

/-- A load that succeeds has read text. -/
theorem text_of_load {J : SerdeJson} {disk : Disk} {s : AiStore} (h : load J disk = .ok s) :
    ∃ text, disk.getD [] = Kit.Utf8.encode text := by
  cases disk with
  | none => exact ⟨[], rfl⟩
  | some bytes =>
    unfold Registry.load at h
    simp only at h
    split at h
    · cases h
    · rename_i text ht
      exact ⟨text, Kit.Utf8.decode?_eq_some.mp ht⟩

end Registry
end Nockmark
