import Nockmark.Kit.Lines
import Nockmark.Kit.Utf8

/-!
# Kit.Journal

A file that entries are appended to, one line each, by a process whose appends may stop anywhere.

A reader parses line by line and skips what does not parse. What it finds depends on where the
appends stopped: an entry that was written after a torn one is on the same line, and is lost with
it; an entry that lacks only its newline is read as long as nothing follows it.

* `Format`, `Format.Sound`: a printer and a parser that takes no text that was cut short or that
  runs into the next one.
* `State.write`: what becomes of the entries, told from the lengths of the appends alone.
* `Stands`, `stands_write`: a file of such appends, as long as it is text at all.
* `parse_lines`: the reader finds exactly the readable entries, in order.
-/

namespace Kit
namespace Journal

structure Format (ε ν : Type) where
  print : ε → List Char
  value : ε → ν
  parse : List Char → Option ν

structure Format.Sound {ε ν : Type} (F : Format ε ν) : Prop where
  opens : ∀ e, ∃ t, F.print e = '{' :: t
  one_line : ∀ e, ∀ c ∈ F.print e, c ≠ '\n' ∧ c ≠ '\r'
  parse_print : ∀ e, F.parse (F.print e) = some (F.value e)
  cut : ∀ e p, p <+: F.print e → p ≠ F.print e → F.parse p = none
  joined : ∀ p q ps, (∀ r ∈ p :: q :: ps, r ≠ [] ∧ ∃ e, r <+: F.print e) →
    F.parse (p :: q :: ps).flatten = none

/-- What stands after the last newline: nothing, one entry, or text that does not parse and will
not, whatever follows on the line. -/
inductive Tail (ε : Type) where
  | clean
  | whole (e : ε)
  | broken

/-- The entries on lines of their own, and the end of the file. -/
structure State (ε : Type) where
  entries : List ε
  tail : Tail ε

def Tail.entries {ε : Type} : Tail ε → List ε
  | .whole e => [e]
  | _ => []

namespace State

variable {ε ν : Type}

def empty : State ε := ⟨[], .clean⟩

/-- What a reader finds. -/
def readable (s : State ε) : List ε := s.entries ++ s.tail.entries

/-- The length in bytes of an entry without its newline. -/
def size (F : Format ε ν) (e : ε) : ℕ := (Utf8.encode (F.print e)).length

/-- The first `n` bytes of the line of `e` are appended. -/
def write (F : Format ε ν) (s : State ε) (e : ε) (n : ℕ) : State ε :=
  if n = 0 then s
  else
    match s.tail with
    | .clean =>
      if size F e < n then ⟨s.entries ++ [e], .clean⟩
      else if n = size F e then ⟨s.entries, .whole e⟩
      else ⟨s.entries, .broken⟩
    | _ => ⟨s.entries, if size F e < n then .clean else .broken⟩

end State

variable {ε ν : Type} {F : Format ε ν}

/-! ### Cuts -/

/-- The beginning of an entry, or all of it. -/
def Cut (F : Format ε ν) (p : List Char) : Prop := p ≠ [] ∧ ∃ e, p <+: F.print e

theorem print_ne_nil (hF : F.Sound) (e : ε) : F.print e ≠ [] := by
  obtain ⟨t, ht⟩ := hF.opens e
  rw [ht]
  exact List.cons_ne_nil _ _

theorem cut_print (hF : F.Sound) (e : ε) : Cut F (F.print e) :=
  ⟨print_ne_nil hF e, e, List.prefix_rfl⟩

theorem one_line_flatten (hF : F.Sound) {ps : List (List Char)} (h : ∀ p ∈ ps, Cut F p) :
    ∀ c ∈ ps.flatten, c ≠ '\n' ∧ c ≠ '\r' := by
  intro c hc
  obtain ⟨p, hp, hcp⟩ := List.mem_flatten.mp hc
  obtain ⟨-, e, he⟩ := h p hp
  exact hF.one_line e c (he.subset hcp)

/-- Cuts that run into one more do not parse. -/
theorem parse_append_cut (hF : F.Sound) {ps : List (List Char)} (h0 : ps ≠ [])
    (h : ∀ p ∈ ps, Cut F p)
    {q : List Char} (hq : Cut F q) : F.parse (ps ++ [q]).flatten = none := by
  have hall : ∀ r ∈ ps ++ [q], r ≠ [] ∧ ∃ e, r <+: F.print e :=
    List.forall_mem_append.mpr ⟨h, List.forall_mem_singleton.mpr hq⟩
  obtain ⟨p, ps, rfl⟩ := List.exists_cons_of_ne_nil h0
  cases ps with
  | nil => exact hF.joined p q [] hall
  | cons p' ps => exact hF.joined p p' (ps ++ [q]) hall

/-! ### Files -/

/-- The cuts `ps` after the last newline. -/
def Tail.Of (F : Format ε ν) (ps : List (List Char)) : Tail ε → Prop
  | .clean => ps = []
  | .whole e => ps = [F.print e]
  | .broken => ps ≠ [] ∧ F.parse ps.flatten = none

/-- The text is whole lines with the entries among them, and the tail. -/
structure Shape (F : Format ε ν) (s : State ε) (closed : List Char) (ps : List (List Char)) :
    Prop where
  ended : closed = [] ∨ ∃ cs, closed = cs ++ ['\n']
  entries : (Lines.lines closed).filterMap F.parse = s.entries.map F.value
  cuts : ∀ p ∈ ps, Cut F p
  tail : s.tail.Of F ps

/-- If the bytes are text at all, it has the shape of `s`. -/
def Stands (F : Format ε ν) (bytes : List UInt8) (s : State ε) : Prop :=
  ∀ text, Utf8.encode text = bytes → ∃ closed ps, text = closed ++ ps.flatten ∧ Shape F s closed ps

theorem stands_empty (F : Format ε ν) : Stands F [] .empty := by
  intro text ht
  have h0 : text = [] := Utf8.encode_injective ht
  subst h0
  exact ⟨[], [], rfl, .inl rfl, rfl, by simp, rfl⟩

theorem lines_closed {closed : List Char} (h : closed = [] ∨ ∃ cs, closed = cs ++ ['\n'])
    (rest : List Char) : Lines.lines (closed ++ rest) = Lines.lines closed ++ Lines.lines rest := by
  rcases h with rfl | ⟨cs, rfl⟩
  · rfl
  · rw [List.append_assoc]
    exact Lines.lines_append cs rest

/-- The reader finds exactly the readable entries, in order. -/
theorem parse_lines (hF : F.Sound) {s : State ε} {bytes : List UInt8} (h : Stands F bytes s)
    {text : List Char}
    (ht : Utf8.encode text = bytes) :
    (Lines.lines text).filterMap F.parse = s.readable.map F.value := by
  obtain ⟨closed, ps, rfl, hs⟩ := h text ht
  have hline : (Lines.lines ps.flatten).filterMap F.parse = s.tail.entries.map F.value := by
    have hlast : ps ≠ [] → Lines.lines ps.flatten = [ps.flatten] := by
      intro h0
      refine Lines.lines_last (fun hc => (one_line_flatten hF hs.cuts _ hc).1 rfl) ?_
      obtain ⟨p, ps, rfl⟩ := List.exists_cons_of_ne_nil h0
      simp [(hs.cuts p List.mem_cons_self).1]
    have htail := hs.tail
    cases hc : s.tail with
    | clean =>
      rw [hc] at htail
      obtain rfl : ps = [] := htail
      rfl
    | whole e =>
      rw [hc] at htail
      obtain rfl : ps = [F.print e] := htail
      rw [hlast (by simp)]
      simp [hF.parse_print, Tail.entries]
    | broken =>
      rw [hc] at htail
      obtain ⟨h0, hp⟩ := htail
      rw [hlast h0]
      simp [hp, Tail.entries]
  rw [lines_closed hs.ended, List.filterMap_append, hs.entries, hline, State.readable,
    List.map_append]

/-! ### Appends -/

theorem encode_line (F : Format ε ν) (e : ε) :
    Utf8.encode (F.print e ++ ['\n']) = Utf8.encode (F.print e) ++ [0x0A] := by
  rw [Utf8.encode_append]
  rfl

/-- Bytes that open with a brace split text between characters. -/
theorem split_append {bytes b : List UInt8} (hb : ∃ t, b = 0x7B :: t) {text : List Char}
    (ht : Utf8.encode text = bytes ++ b) :
    ∃ pre q, text = pre ++ q ∧ Utf8.encode pre = bytes ∧ Utf8.encode q = b := by
  obtain ⟨t, rfl⟩ := hb
  obtain ⟨pre, c, cs, rfl, hpre, hc, hcs⟩ := Utf8.encode_split (by decide) ht
  exact ⟨pre, c :: cs, rfl, hpre, by rw [Utf8.encode_cons, hc, hcs]; rfl⟩

/-- The line is written to its end. -/
theorem shape_line (hF : F.Sound) {s : State ε} {closed : List Char} {ps : List (List Char)}
    (hs : Shape F s closed ps) (e : ε) {n : ℕ} (hn : State.size F e < n) :
    Shape F (s.write F e n) (closed ++ (ps ++ [F.print e]).flatten ++ ['\n']) [] := by
  have hcuts : ∀ p ∈ ps ++ [F.print e], Cut F p :=
    List.forall_mem_append.mpr ⟨hs.cuts, List.forall_mem_singleton.mpr (cut_print hF e)⟩
  have hlines : Lines.lines (closed ++ (ps ++ [F.print e]).flatten ++ ['\n']) =
      Lines.lines closed ++ [(ps ++ [F.print e]).flatten] := by
    rw [List.append_assoc, lines_closed hs.ended, Lines.lines_line (one_line_flatten hF hcuts)]
    rfl
  have hlost : ps ≠ [] → (Lines.lines (closed ++ (ps ++ [F.print e]).flatten ++ ['\n'])).filterMap
      F.parse = s.entries.map F.value := by
    intro h0
    rw [hlines, List.filterMap_append, hs.entries]
    simp only [List.filterMap_cons, parse_append_cut hF h0 hs.cuts (cut_print hF e),
      List.filterMap_nil, List.append_nil]
  have h0 : n ≠ 0 := by omega
  refine ⟨.inr ⟨_, rfl⟩, ?_, by simp, ?_⟩
  · have htail := hs.tail
    cases hc : s.tail with
    | clean =>
      rw [hc] at htail
      obtain rfl : ps = [] := htail
      simp only [State.write, if_neg h0, hc, if_pos hn, hlines, List.filterMap_append, hs.entries]
      simp [hF.parse_print]
    | whole e' =>
      rw [hc] at htail
      simp only [State.write, if_neg h0, hc]
      exact hlost (by rw [show ps = [F.print e'] from htail]; simp)
    | broken =>
      rw [hc] at htail
      simp only [State.write, if_neg h0, hc]
      exact hlost htail.1
  · cases hc : s.tail <;> simp [State.write, h0, hc, hn, Tail.Of]

/-- The line stops before its newline. -/
theorem shape_cut (hF : F.Sound) {s : State ε} {closed : List Char} {ps : List (List Char)}
    (hs : Shape F s closed ps) {e : ε} {q : List Char} (h0 : q ≠ []) (hq : q <+: F.print e) :
    Shape F (s.write F e (Utf8.encode q).length) closed (ps ++ [q]) := by
  have hcut : Cut F q := ⟨h0, e, hq⟩
  have hcuts : ∀ p ∈ ps ++ [q], Cut F p :=
    List.forall_mem_append.mpr ⟨hs.cuts, List.forall_mem_singleton.mpr hcut⟩
  have hlen : (Utf8.encode q).length ≠ 0 := by
    intro h
    exact h0 (Utf8.encode_injective (List.eq_nil_of_length_eq_zero h))
  have hle : ¬ State.size F e < (Utf8.encode q).length := by
    obtain ⟨r, hr⟩ := hq
    rw [State.size, ← hr, Utf8.encode_append, List.length_append]
    omega
  have hfull : (Utf8.encode q).length = State.size F e ↔ q = F.print e := by
    constructor
    · intro h
      obtain ⟨r, hr⟩ := hq
      rw [State.size, ← hr, Utf8.encode_append, List.length_append] at h
      have hnil : Utf8.encode r = [] := List.eq_nil_of_length_eq_zero (by omega)
      have : r = [] := Utf8.encode_injective hnil
      rw [← hr, this, List.append_nil]
    · rintro rfl
      rfl
  refine ⟨hs.ended, ?_, hcuts, ?_⟩
  · rw [hs.entries]
    cases hc : s.tail with
    | clean =>
      simp only [State.write, if_neg hlen, hc, if_neg hle]
      split <;> rfl
    | whole => simp only [State.write, if_neg hlen, hc]
    | broken => simp only [State.write, if_neg hlen, hc]
  · have htail := hs.tail
    cases hc : s.tail with
    | clean =>
      rw [hc] at htail
      obtain rfl : ps = [] := htail
      simp only [State.write, if_neg hlen, hc, if_neg hle, hfull]
      split
      · rename_i heq
        exact congrArg (fun p => [p]) heq
      · rename_i hne
        exact ⟨by simp, by simpa using hF.cut e q hq hne⟩
    | whole e' =>
      rw [hc] at htail
      have hps : ps ≠ [] := by rw [show ps = [F.print e'] from htail]; simp
      simp only [State.write, if_neg hlen, hc, if_neg hle]
      exact ⟨by simp, parse_append_cut hF hps hs.cuts hcut⟩
    | broken =>
      rw [hc] at htail
      simp only [State.write, if_neg hlen, hc, if_neg hle]
      exact ⟨by simp, parse_append_cut hF htail.1 hs.cuts hcut⟩

/-- An append that stops after `n` bytes of the line, or writes all of it. -/
theorem stands_write (hF : F.Sound) {s : State ε} {bytes : List UInt8} (h : Stands F bytes s)
    (e : ε) (n : ℕ) :
    Stands F (bytes ++ (Utf8.encode (F.print e ++ ['\n'])).take n) (s.write F e n) := by
  intro text ht
  by_cases h0 : n = 0
  · subst h0
    rw [List.take_zero, List.append_nil] at ht
    obtain ⟨closed, ps, rfl, hs⟩ := h text ht
    exact ⟨closed, ps, rfl, by simpa [State.write] using hs⟩
  · have hbrace : ∃ t, (Utf8.encode (F.print e ++ ['\n'])).take n = 0x7B :: t := by
      obtain ⟨t, hp⟩ := hF.opens e
      obtain ⟨m, rfl⟩ := Nat.exists_eq_succ_of_ne_zero h0
      rw [hp]
      exact ⟨_, rfl⟩
    obtain ⟨pre, q, rfl, hpre, hq⟩ := split_append hbrace ht
    obtain ⟨closed, ps, rfl, hs⟩ := h pre hpre
    by_cases hn : State.size F e < n
    · have hall : q = F.print e ++ ['\n'] := by
        apply Utf8.encode_injective
        rw [hq, List.take_of_length_le]
        rw [encode_line, List.length_append]
        exact hn
      refine ⟨_, [], ?_, shape_line hF hs e hn⟩
      rw [hall]
      simp
    · have hshort : (Utf8.encode (F.print e ++ ['\n'])).take n =
          (Utf8.encode (F.print e)).take n := by
        rw [encode_line, List.take_append_of_le_length (Nat.le_of_not_lt hn)]
      rw [hshort] at hq
      have hprefix : q <+: F.print e :=
        Utf8.prefix_of_encode_prefix (hq ▸ List.take_prefix n _)
      have hne : q ≠ [] := by
        rintro rfl
        obtain ⟨t, hb⟩ := hbrace
        rw [hshort, ← hq] at hb
        cases hb
      have hlen : (Utf8.encode q).length = n := by
        rw [hq, List.length_take]
        exact Nat.min_eq_left (Nat.le_of_not_lt hn)
      refine ⟨closed, ps ++ [q], by simp, ?_⟩
      rw [← hlen]
      exact shape_cut hF hs hne hprefix

/-! ### What is left of the entries -/

/-- The entries after an append: those there were, and perhaps the new one. -/
theorem write_cases (F : Format ε ν) (s : State ε) (e : ε) (n : ℕ) :
    s.write F e n = s ∨
    ((s.write F e n).entries = s.entries ∧ (s.write F e n).tail.entries = []) ∨
    ((s.write F e n).entries = s.entries ++ [e] ∧ (s.write F e n).tail.entries = [] ∧
      State.size F e < n) ∨
    ((s.write F e n).entries = s.entries ∧ (s.write F e n).tail.entries = [e] ∧
      n = State.size F e) := by
  unfold State.write
  split
  · exact .inl rfl
  · split
    · split
      · rename_i hn
        exact .inr (.inr (.inl ⟨rfl, rfl, hn⟩))
      · split
        · rename_i hn
          exact .inr (.inr (.inr ⟨rfl, rfl, hn⟩))
        · exact .inr (.inl ⟨rfl, rfl⟩)
    · refine .inr (.inl ⟨rfl, ?_⟩)
      split <;> rfl

def State.writes (F : Format ε ν) (s : State ε) (ws : List (ε × ℕ)) : State ε :=
  ws.foldl (fun s w => s.write F w.1 w.2) s

theorem readable_write (F : Format ε ν) (s : State ε) (e : ε) (n : ℕ) :
    (s.write F e n).readable.Sublist (s.readable ++ [e]) := by
  have hpart : s.entries.Sublist s.readable := List.sublist_append_left _ _
  rcases write_cases F s e n with heq | ⟨hes, ht⟩ | ⟨hes, ht, -⟩ | ⟨hes, ht, -⟩
  · rw [heq]
    exact List.sublist_append_left _ _
  · rw [State.readable, hes, ht, List.append_nil]
    exact hpart.trans (List.sublist_append_left _ _)
  · rw [State.readable, hes, ht, List.append_nil]
    exact hpart.append (List.Sublist.refl _)
  · rw [State.readable, hes, ht]
    exact hpart.append (List.Sublist.refl _)

/-- Nothing is read that was not written, nor in another order. -/
theorem readable_writes (F : Format ε ν) (s : State ε) (ws : List (ε × ℕ)) :
    (s.writes F ws).readable.Sublist (s.readable ++ ws.map Prod.fst) := by
  induction ws generalizing s with
  | nil => rw [List.map_nil, List.append_nil]; exact List.Sublist.refl _
  | cons w ws ih =>
    refine (ih (s.write F w.1 w.2)).trans ?_
    rw [List.map_cons, List.append_cons]
    exact (readable_write F s w.1 w.2).append (List.Sublist.refl _)

/-- While every line gets its newline, everything is read. -/
theorem readable_writes_whole (F : Format ε ν) {s : State ε} (hs : s.tail = .clean)
    {ws : List (ε × ℕ)} (h : ∀ w ∈ ws, State.size F w.1 < w.2) :
    (s.writes F ws).readable = s.entries ++ ws.map Prod.fst := by
  induction ws generalizing s with
  | nil => simp [State.writes, State.readable, hs, Tail.entries]
  | cons w ws ih =>
    obtain ⟨hw, hws⟩ := List.forall_mem_cons.mp h
    have h0 : w.2 ≠ 0 := by omega
    have hwrite : s.write F w.1 w.2 = ⟨s.entries ++ [w.1], .clean⟩ := by
      simp only [State.write, if_neg h0, hs, if_pos hw]
    show ((s.write F w.1 w.2).writes F ws).readable = _
    rw [ih (by rw [hwrite]) hws, hwrite, List.map_cons, List.append_assoc, List.singleton_append]

end Journal
end Kit
