import Mathlib.Data.List.TakeWhile
import Nockmark.Kit.Json

/-!
# Kit.JsonScan

Why JSON text that was cut short, or that runs into the next text, does not parse.

A scanner reads one character at a time and remembers how many brackets are open and whether it
stands in a string. `none`: the text can go on to nothing.

* `reads_parseValue`: what the parser reads brings the scanner back to the depth where it started.
* `scan_prefix`: a proper prefix of an object's text leaves a bracket open.
* `parse_cut`, `parse_joined`: so it does not parse, neither alone nor with prefixes of other
  objects after it.
-/

namespace Kit
namespace Json

/-- Where the scanner stands: between tokens, in a string, after a backslash there, or after a
string or a closing bracket. -/
inductive Mode where
  | plain
  | inString
  | escaped
  | ended
  deriving DecidableEq

def closeBracket : Nat → Option (Nat × Mode)
  | 0 => none
  | d + 1 => some (d, .ended)

def isEscape (c : Char) : Bool :=
  c = '"' || c = '\\' || c = '/' || c = 'n' || c = 'r' || c = 't' || c = 'b' || c = 'f' || c = 'u'

/-- One character, at the number of open brackets and the mode. -/
def scanChar : Nat × Mode → Char → Option (Nat × Mode)
  | (d, .plain), c =>
    if c = '"' then some (d, .inString)
    else if c = '{' ∨ c = '[' then some (d + 1, .plain)
    else if c = '}' ∨ c = ']' then closeBracket d
    else some (d, .plain)
  | (d, .inString), c =>
    if c = '"' then some (d, .ended)
    else if c = '\\' then some (d, .escaped)
    else some (d, .inString)
  | (d, .escaped), c => if isEscape c then some (d, .inString) else none
  | (d, .ended), c =>
    if isWs c then some (d, .ended)
    else if c = '}' ∨ c = ']' then closeBracket d
    else if (c = ',' ∨ c = ':') ∧ 0 < d then some (d, .plain)
    else none

def scan (a : Nat × Mode) (cs : List Char) : Option (Nat × Mode) := cs.foldlM scanChar a

@[simp] theorem scan_nil (a : Nat × Mode) : scan a [] = some a := rfl

@[simp] theorem scan_cons (a : Nat × Mode) (c : Char) (cs : List Char) :
    scan a (c :: cs) = (scanChar a c).bind (scan · cs) := List.foldlM_cons

theorem scan_append (a : Nat × Mode) (cs ds : List Char) :
    scan a (cs ++ ds) = (scan a cs).bind (scan · ds) := List.foldlM_append

/-! ## What the parser reads -/

/-- Reading `cs` down to `r` takes the scanner from `a` to `b`. -/
def Reads (a b : Nat × Mode) (cs r : List Char) : Prop :=
  ∃ used, cs = used ++ r ∧ scan a used = some b

theorem Reads.refl (a : Nat × Mode) (cs : List Char) : Reads a a cs cs := ⟨[], rfl, rfl⟩

theorem Reads.char {a b c : Nat × Mode} {x : Char} {cs r : List Char} (h : scanChar a x = some b)
    (hr : Reads b c cs r) : Reads a c (x :: cs) r := by
  obtain ⟨used, rfl, hs⟩ := hr
  exact ⟨x :: used, rfl, by rw [scan_cons, h]; exact hs⟩

theorem Reads.trans {a b c : Nat × Mode} {cs ds r : List Char} (h1 : Reads a b cs ds)
    (h2 : Reads b c ds r) : Reads a c cs r := by
  obtain ⟨u1, rfl, hs1⟩ := h1
  obtain ⟨u2, rfl, hs2⟩ := h2
  exact ⟨u1 ++ u2, (List.append_assoc _ _ _).symm, by rw [scan_append, hs1]; exact hs2⟩

/-- Between values: white space, commas and closing brackets may follow. -/
def Mode.Between (m : Mode) : Prop := m = .plain ∨ m = .ended

theorem reads_skipWs {m : Mode} (hm : m.Between) (d : Nat) (cs : List Char) :
    Reads (d, m) (d, m) cs (skipWs cs) := by
  induction cs with
  | nil => exact .refl _ _
  | cons c cs ih =>
    by_cases hc : isWs c = true
    · have hstep : scanChar (d, m) c = some (d, m) := by
        rcases hm with rfl | rfl
        · simp only [isWs, Bool.or_eq_true, decide_eq_true_eq] at hc
          rcases hc with ((rfl | rfl) | rfl) | rfl <;> rfl
        · simp [scanChar, hc]
      rw [show skipWs (c :: cs) = skipWs cs by simp [skipWs, hc]]
      exact .char hstep ih
    · rw [skipWs_cons (by simpa using hc)]
      exact .refl _ _

theorem scanChar_close {m : Mode} (hm : m.Between) {c : Char} (hc : c = '}' ∨ c = ']') (d : Nat) :
    scanChar (d + 1, m) c = some (d, .ended) := by
  rcases hm with rfl | rfl <;> rcases hc with rfl | rfl <;> rfl

theorem scanChar_separator {m : Mode} (hm : m.Between) {c : Char} (hc : c = ',' ∨ c = ':')
    (d : Nat) : scanChar (d + 1, m) c = some (d + 1, .plain) := by
  rcases hm with rfl | rfl <;> rcases hc with rfl | rfl <;> simp [scanChar, isWs]

theorem hexVal_inString {c : Char} {n : Nat} (h : hexVal c = some n) (d : Nat) :
    scanChar (d, .inString) c = some (d, .inString) := by
  have h1 : c ≠ '"' := by rintro rfl; cases h
  have h2 : c ≠ '\\' := by rintro rfl; cases h
  simp [scanChar, h1, h2]

theorem reads_hex4 {cs r : List Char} {n : Nat} (h : hex4 cs = some (n, r)) (d : Nat) :
    Reads (d, .inString) (d, .inString) cs r := by
  unfold hex4 at h
  split at h
  · rename_i x y z w r'
    simp only [Option.bind_eq_bind, Option.bind_eq_some_iff] at h
    obtain ⟨_, hx, _, hy, _, hz, _, hw, heq⟩ := h
    cases heq
    exact .char (hexVal_inString hx d) (.char (hexVal_inString hy d)
      (.char (hexVal_inString hz d) (.char (hexVal_inString hw d) (.refl _ _))))
  · cases h

theorem reads_unescapeUnicode {cs r : List Char} {c : Char}
    (h : unescapeUnicode cs = some (c, r)) (d : Nat) :
    Reads (d, .inString) (d, .inString) cs r := by
  unfold unescapeUnicode at h
  split at h
  · cases h
  · rename_i n r1 h4
    have h1 := reads_hex4 h4 d
    split at h
    · simp only [Option.some.injEq, Prod.mk.injEq] at h
      obtain ⟨-, rfl⟩ := h
      exact h1
    · split at h
      · split at h
        · rename_i r2
          split at h
          · cases h
          · rename_i m r3 h4'
            split at h
            · simp only [Option.some.injEq, Prod.mk.injEq] at h
              obtain ⟨-, rfl⟩ := h
              exact h1.trans (.char rfl (.char rfl (reads_hex4 h4' d)))
            · cases h
        · cases h
      · cases h

theorem reads_unescape {cs r : List Char} {c : Char} (h : unescape cs = some (c, r)) (d : Nat) :
    Reads (d, .escaped) (d, .inString) cs r := by
  cases cs with
  | nil => cases h
  | cons x cs =>
    simp only [unescape] at h
    by_cases hx : isEscape x = true
    · have hstep : scanChar (d, .escaped) x = some (d, .inString) := by simp [scanChar, hx]
      refine .char hstep ?_
      repeat' split at h
      all_goals first
        | exact reads_unescapeUnicode h d
        | (cases h <;> exact .refl _ _)
    · exfalso
      simp only [isEscape, Bool.or_eq_true, decide_eq_true_eq, not_or] at hx
      simp [hx] at h

theorem reads_parseChars {f : Nat} {cs r ds : List Char} (h : parseChars f cs = some (ds, r))
    (d : Nat) : Reads (d, .inString) (d, .ended) cs r := by
  induction f generalizing cs ds with
  | zero => cases h
  | succ f ih =>
    cases cs with
    | nil => cases h
    | cons c cs =>
      simp only [parseChars] at h
      split at h
      · rename_i hc; cases h; exact .char (by simp [scanChar, hc]) (.refl _ _)
      · rename_i hq
        split at h
        · rename_i hb
          split at h
          · cases h
          · rename_i x r1 hu
            obtain ⟨p, hp, heq⟩ := Option.map_eq_some_iff.mp h
            cases heq
            exact .char (by simp [scanChar, hb]) ((reads_unescape hu d).trans (ih hp))
        · rename_i hb
          split at h
          · cases h
          · obtain ⟨p, hp, heq⟩ := Option.map_eq_some_iff.mp h
            cases heq
            exact .char (by simp [scanChar, hq, hb]) (ih hp)

theorem reads_parseStr {cs r : List Char} {s : String} (h : parseStr cs = some (s, r)) (d : Nat) :
    Reads (d, .inString) (d, .ended) cs r := by
  obtain ⟨p, hp, heq⟩ := Option.map_eq_some_iff.mp h
  cases heq
  exact reads_parseChars hp d

theorem scan_digits {ds : List Char} (h : ∀ c ∈ ds, c.isDigit = true) (d : Nat) :
    scan (d, .plain) ds = some (d, .plain) := by
  induction ds with
  | nil => rfl
  | cons c ds ih =>
    obtain ⟨-, h1, h2, h3, h4, h5⟩ := isDigit_cases (h c List.mem_cons_self)
    have hb : c ≠ '}' ∧ c ≠ ']' := by
      constructor <;> (rintro rfl; exact absurd (h _ List.mem_cons_self) (by simp))
    have hc : scanChar (d, .plain) c = some (d, .plain) := by simp_all [scanChar]
    rw [scan_cons, hc]
    exact ih fun c hc => h c (List.mem_cons_of_mem _ hc)

theorem reads_parseNum {cs r : List Char} {v : Value} (h : parseNum cs = some (v, r)) (d : Nat) :
    Reads (d, .plain) (d, .plain) cs r := by
  have hr : r = cs.dropWhile Char.isDigit := by
    simp only [parseNum] at h
    repeat' split at h
    all_goals cases h
    rfl
  subst hr
  exact ⟨cs.takeWhile Char.isDigit, List.takeWhile_append_dropWhile.symm,
    scan_digits (fun c hc => List.mem_takeWhile_imp hc) d⟩

/-- Reading a value, at any depth. -/
def ReadsValue (cs r : List Char) : Prop :=
  ∀ d, ∃ m : Mode, m.Between ∧ Reads (d, .plain) (d, m) cs r

/-- Reading what stands between brackets, and the bracket that closes it. -/
def ReadsClosed (cs r : List Char) : Prop := ∀ d, Reads (d + 1, .plain) (d, .ended) cs r

/-- After a value: the closing bracket, or a comma and the rest. -/
theorem ReadsValue.close {cs r r' : List Char} {c : Char} (h : ReadsValue cs r)
    (hs : skipWs r = c :: r') (hc : c = '}' ∨ c = ']') : ReadsClosed cs r' := by
  intro d
  obtain ⟨m, hm, hr⟩ := h (d + 1)
  have hw := reads_skipWs hm (d + 1) r
  rw [hs] at hw
  exact hr.trans (hw.trans (.char (scanChar_close hm hc d) (.refl _ _)))

theorem ReadsValue.separator {cs r r' r'' : List Char} {c : Char} (h : ReadsValue cs r)
    (hs : skipWs r = c :: r') (hc : c = ',' ∨ c = ':') (hr' : ReadsClosed r' r'') :
    ReadsClosed cs r'' := by
  intro d
  obtain ⟨m, hm, hr⟩ := h (d + 1)
  have hw := reads_skipWs hm (d + 1) r
  rw [hs] at hw
  exact hr.trans (hw.trans (.char (scanChar_separator hm hc d) (hr' d)))

theorem ReadsValue.of_str {cs r : List Char} {s : String} (h : parseStr cs = some (s, r)) :
    ReadsValue ('"' :: cs) r := fun d =>
  ⟨.ended, .inr rfl, .char rfl (reads_parseStr h d)⟩

/-- White space, an opening bracket, and what closes it. -/
theorem ReadsClosed.value {c : Char} (hc : c = '{' ∨ c = '[') {cs r : List Char}
    (h : ReadsClosed (skipWs cs) r) : ReadsValue (c :: cs) r := by
  intro d
  have ho : scanChar (d, .plain) c = some (d + 1, .plain) := by rcases hc with rfl | rfl <;> rfl
  exact ⟨.ended, .inr rfl, .char ho ((reads_skipWs (.inl rfl) (d + 1) cs).trans (h d))⟩

theorem ReadsValue.skipWs {cs r : List Char} (h : ReadsValue (skipWs cs) r) : ReadsValue cs r := by
  intro d
  obtain ⟨m, hm, hr⟩ := h d
  exact ⟨m, hm, (reads_skipWs (.inl rfl) d cs).trans hr⟩

mutual

/-- Every parser of the value grammar moves the scanner as its bracketing says. -/
theorem reads_parseValue : ∀ {f : Nat} {cs r : List Char} {v : Value},
    parseValue f cs = some (v, r) → ReadsValue cs r
  | 0, _, _, _, h => by cases h
  | f + 1, cs, r, v, h => by
    apply ReadsValue.skipWs
    rw [parseValue] at h
    split at h
    · cases h
    · rename_i c t hc
      rw [hc]
      split at h
      · rename_i he
        subst he
        obtain ⟨p, hp, heq⟩ := Option.map_eq_some_iff.mp h
        cases heq
        exact .of_str hp
      split at h
      · rename_i he
        apply ReadsClosed.value (.inr he)
        split at h
        · rename_i hs
          cases h
          rw [hs]
          exact fun d => .char rfl (.refl _ _)
        · obtain ⟨p, hp, heq⟩ := Option.map_eq_some_iff.mp h
          cases heq
          exact reads_parseElems hp
      split at h
      · rename_i he
        apply ReadsClosed.value (.inl he)
        split at h
        · rename_i hs
          cases h
          rw [hs]
          exact fun d => .char rfl (.refl _ _)
        · obtain ⟨p, hp, heq⟩ := Option.map_eq_some_iff.mp h
          cases heq
          exact reads_parseMembers hp
      -- the three words and numbers open no bracket
      split at h
      · rename_i he
        subst he
        split at h
        · cases h
          exact fun d => ⟨.plain, .inl rfl, ⟨['n', 'u', 'l', 'l'], rfl, rfl⟩⟩
        · cases h
      split at h
      · rename_i he
        subst he
        split at h
        · cases h
          exact fun d => ⟨.plain, .inl rfl, ⟨['t', 'r', 'u', 'e'], rfl, rfl⟩⟩
        · cases h
      split at h
      · rename_i he
        subst he
        split at h
        · cases h
          exact fun d => ⟨.plain, .inl rfl, ⟨['f', 'a', 'l', 's', 'e'], rfl, rfl⟩⟩
        · cases h
      exact fun d => ⟨.plain, .inl rfl, reads_parseNum h d⟩

theorem reads_parseElems : ∀ {f : Nat} {cs r : List Char} {xs : List Value},
    parseElems f cs = some (xs, r) → ReadsClosed cs r
  | 0, _, _, _, h => by cases h
  | f + 1, cs, r, xs, h => by
    rw [parseElems] at h
    split at h
    · cases h
    · rename_i x r1 hx
      have hv := reads_parseValue hx
      split at h
      · rename_i hs; cases h; exact hv.close hs (.inr rfl)
      · rename_i hs
        obtain ⟨p, hp, heq⟩ := Option.map_eq_some_iff.mp h
        cases heq
        exact hv.separator hs (.inl rfl) (reads_parseElems hp)
      · cases h

theorem reads_parseMembers : ∀ {f : Nat} {cs r : List Char} {m : Members Value},
    parseMembers f cs = some (m, r) → ReadsClosed cs r
  | 0, _, _, _, h => by cases h
  | f + 1, cs, r, m, h => by
    rw [parseMembers] at h
    split at h
    · rename_i t hs
      split at h
      · cases h
      · rename_i k r1 hk
        have hkey : ReadsValue cs r1 := by
          apply ReadsValue.skipWs
          rw [hs]
          exact .of_str hk
        split at h
        · rename_i r2 hcolon
          split at h
          · cases h
          · rename_i v r3 hval
            have hv := reads_parseValue hval
            refine hkey.separator hcolon (.inr rfl) ?_
            split at h
            · rename_i hend; cases h; exact hv.close hend (.inl rfl)
            · rename_i hend
              obtain ⟨p, hp, heq⟩ := Option.map_eq_some_iff.mp h
              cases heq
              exact hv.separator hend (.inl rfl) (reads_parseMembers hp)
            · cases h
        · cases h
    · cases h

end

/-- A text that parses brings the scanner back to no open bracket. -/
theorem scan_of_parse {cs : List Char} {v : Value} (h : parse cs = some v) :
    ∃ m : Mode, m.Between ∧ scan (0, .plain) cs = some (0, m) := by
  unfold parse at h
  split at h
  · rename_i v' r hv
    split at h
    · rename_i hr
      obtain ⟨m, hm, hread⟩ := reads_parseValue hv 0
      have hw := reads_skipWs hm 0 r
      rw [hr] at hw
      obtain ⟨used, heq, hs⟩ := hread.trans hw
      rw [List.append_nil] at heq
      exact ⟨m, hm, heq ▸ hs⟩
    · cases h
  · cases h

/-! ## Text cut short -/

/-- The scan is past the object's first character: a bracket is open, or has just closed. -/
def Opened (a : Nat × Mode) : Prop := 0 < a.1 ∨ a.2 = .ended

theorem opened_closeBracket {d : Nat} {b : Nat × Mode} (h : closeBracket d = some b) :
    Opened b := by
  cases d with
  | zero => cases h
  | succ d => cases h; exact .inr rfl

theorem Opened.scanChar {a b : Nat × Mode} {c : Char} (ha : Opened a)
    (h : scanChar a c = some b) : Opened b := by
  obtain ⟨d, m⟩ := a
  cases m with
  | ended =>
    simp only [Json.scanChar] at h
    repeat' split at h
    · cases h; exact .inr rfl
    · exact opened_closeBracket h
    · rename_i hc; cases h; exact .inl hc.2
    · cases h
  | plain =>
    have hd : 0 < d := ha.resolve_right (by simp)
    simp only [Json.scanChar] at h
    repeat' split at h
    · cases h; exact .inl hd
    · cases h; exact .inl (Nat.succ_pos d)
    · exact opened_closeBracket h
    · cases h; exact .inl hd
  | inString =>
    have hd : 0 < d := ha.resolve_right (by simp)
    simp only [Json.scanChar] at h
    repeat' split at h
    all_goals cases h; exact .inl hd
  | escaped =>
    have hd : 0 < d := ha.resolve_right (by simp)
    simp only [Json.scanChar] at h
    split at h
    · cases h; exact .inl hd
    · cases h

theorem Opened.scan {a b : Nat × Mode} {cs : List Char} (ha : Opened a)
    (h : scan a cs = some b) : Opened b := by
  induction cs generalizing a with
  | nil => cases h; exact ha
  | cons c cs ih =>
    rw [scan_cons] at h
    obtain ⟨a', ha', h'⟩ := Option.bind_eq_some_iff.mp h
    exact ih (ha.scanChar ha') h'

/-- After the last bracket has closed there is only white space. -/
theorem isWs_of_scan_ended {cs : List Char} {b : Nat × Mode} (h : scan (0, .ended) cs = some b) :
    ∀ c ∈ cs, isWs c = true := by
  induction cs with
  | nil => simp
  | cons c cs ih =>
    rw [scan_cons] at h
    obtain ⟨a, ha, h'⟩ := Option.bind_eq_some_iff.mp h
    simp only [scanChar, closeBracket, Nat.lt_irrefl, and_false, if_false] at ha
    split at ha
    · rename_i hc
      cases ha
      intro x hx
      rcases List.mem_cons.mp hx with rfl | hx
      · exact hc
      · exact ih h' x hx
    · split at ha <;> cases ha

theorem printMembers_last (m : Members Value) : (printMembers m).getLast? = some '}' := by
  induction m with
  | nil => rfl
  | cons k v m ih => simp [printMembers, List.getLast?_append, List.getLast?_cons, ih]

theorem print_obj_last (m : Members Value) : (print (.obj m)).getLast? = some '}' := by
  cases m with
  | nil => rfl
  | cons k v m =>
    have := printMembers_last m
    simp [print, List.getLast?_append, List.getLast?_cons, this]

theorem print_obj_head (m : Members Value) : ∃ t, print (.obj m) = '{' :: t := by
  cases m <;> exact ⟨_, rfl⟩

/-- The first character of an object opens its bracket. -/
theorem opened_of_scan_obj {m : Members Value} {p q : List Char} (hq : p ++ q = print (.obj m))
    (h0 : p ≠ []) {b : Nat × Mode} (h : scan (0, .plain) p = some b) : Opened b := by
  obtain ⟨t, ht⟩ := print_obj_head m
  obtain ⟨c, p', rfl⟩ := List.exists_cons_of_ne_nil h0
  rw [ht, List.cons_append, List.cons.injEq] at hq
  obtain ⟨rfl, -⟩ := hq
  have hb : scan (1, .plain) p' = some b := h
  exact Opened.scan (.inl Nat.one_pos) hb

theorem scan_obj (m : Members Value) : scan (0, .plain) (print (.obj m)) = some (0, .ended) := by
  obtain ⟨e, -, he⟩ := scan_of_parse (parse_print (.obj m))
  obtain ⟨t, ht⟩ := print_obj_head m
  have ho : Opened (0, e) := opened_of_scan_obj (List.append_nil _) (by simp [ht]) he
  rw [he, show e = .ended from ho.resolve_left (Nat.lt_irrefl 0)]

/-- A proper prefix leaves a bracket open. -/
theorem scan_prefix {m : Members Value} {p : List Char} (hp : p <+: print (.obj m)) (h0 : p ≠ [])
    (hne : p ≠ print (.obj m)) : ∃ b, scan (0, .plain) p = some b ∧ 0 < b.1 := by
  obtain ⟨q, hq⟩ := hp
  have he := scan_obj m
  rw [← hq, scan_append] at he
  obtain ⟨b, hb, hrest⟩ := Option.bind_eq_some_iff.mp he
  refine ⟨b, hb, ?_⟩
  -- were it closed again, the rest would be white space, but it ends with a bracket
  rcases Nat.eq_zero_or_pos b.1 with hz | hz
  · exfalso
    have hd : b.2 = .ended := (opened_of_scan_obj hq h0 hb).resolve_left (by omega)
    have hq0 : q ≠ [] := by rintro rfl; exact hne (by rw [← hq, List.append_nil])
    have hlast : q.getLast? = some '}' := by
      rw [← List.getLast?_append_of_ne_nil p hq0, hq]
      exact print_obj_last m
    rw [show b = (0, .ended) from Prod.ext hz hd] at hrest
    exact absurd (isWs_of_scan_ended hrest _ (List.mem_of_getLast? hlast)) (by simp [isWs])
  · exact hz

/-- Text cut short does not parse. -/
theorem parse_cut {m : Members Value} {p : List Char} (hp : p <+: print (.obj m))
    (hne : p ≠ print (.obj m)) : parse p = none := by
  by_cases h0 : p = []
  · subst h0; rfl
  · obtain ⟨b, hb, hd⟩ := scan_prefix hp h0 hne
    cases h : parse p with
    | none => rfl
    | some v =>
      obtain ⟨e, -, he⟩ := scan_of_parse h
      rw [hb] at he
      cases he
      exact absurd hd (Nat.lt_irrefl 0)

/-! ## Text run together -/

/-- The text of an object whose first key starts with no white space or separator. -/
def Keyed (cs : List Char) : Prop :=
  ∃ m x t, cs = print (.obj m) ∧ cs = '{' :: '"' :: x :: t ∧
    ∀ d, scanChar (d, .ended) x = none

theorem scanChar_shift {a b : Nat × Mode} {c : Char} (h : scanChar a c = some b) (d : Nat) :
    scanChar (a.1 + d, a.2) c = some (b.1 + d, b.2) := by
  obtain ⟨k, m⟩ := a
  have hclose : ∀ {b}, closeBracket k = some b → closeBracket (k + d) = some (b.1 + d, b.2) := by
    intro b hb
    cases k with
    | zero => cases hb
    | succ k => cases hb; rw [Nat.succ_add]; rfl
  cases m with
  | plain =>
    simp only [scanChar] at h ⊢
    split at h
    · cases h; simp_all
    split at h
    · cases h; simp_all; omega
    split at h
    · simp_all
    · cases h; simp_all
  | inString =>
    simp only [scanChar] at h ⊢
    repeat' split at h
    all_goals cases h; simp_all
  | escaped =>
    simp only [scanChar] at h ⊢
    split at h
    · cases h; simp_all
    · cases h
  | ended =>
    simp only [scanChar] at h ⊢
    split at h
    · cases h; simp_all
    split at h
    · simp_all
    split at h
    · cases h; simp_all
    · cases h

theorem scan_shift {a b : Nat × Mode} {cs : List Char} (h : scan a cs = some b) (d : Nat) :
    scan (a.1 + d, a.2) cs = some (b.1 + d, b.2) := by
  induction cs generalizing a with
  | nil => cases h; rfl
  | cons c cs ih =>
    rw [scan_cons] at h ⊢
    obtain ⟨a', ha', h'⟩ := Option.bind_eq_some_iff.mp h
    rw [scanChar_shift ha' d]
    exact ih h'

/-- While a bracket is open, a further prefix closes none but its own. -/
theorem scan_piece {cs p : List Char} (hk : Keyed cs) (hp : p <+: cs) (h0 : p ≠ [])
    {a b : Nat × Mode} (ha : 0 < a.1) (h : scan a p = some b) : 0 < b.1 := by
  obtain ⟨m, x, t, hcs, hopen, hx⟩ := hk
  obtain ⟨c, p', rfl⟩ := List.exists_cons_of_ne_nil h0
  obtain ⟨q, hq⟩ := hp
  have hc : c = '{' := by
    rw [hopen, List.cons_append, List.cons.injEq] at hq
    exact hq.1
  obtain ⟨k, mode⟩ := a
  cases mode with
  | plain =>
    have he := scan_obj m
    rw [← hcs, ← hq, scan_append] at he
    obtain ⟨b0, hb0, -⟩ := Option.bind_eq_some_iff.mp he
    have hs := scan_shift hb0 k
    rw [Nat.zero_add, h] at hs
    cases hs
    show 0 < b0.1 + k
    have : 0 < k := ha
    omega
  | ended =>
    subst hc
    rw [scan_cons, show scanChar (k, .ended) '{' = none by simp [scanChar, isWs]] at h
    cases h
  | escaped =>
    subst hc
    rw [scan_cons, show scanChar (k, .escaped) '{' = none by simp [scanChar, isEscape]] at h
    cases h
  | inString =>
    -- the key's quote ends the string, and no key starts with what may follow one
    subst hc
    rw [hopen, List.cons_append, List.cons.injEq] at hq
    cases p' with
    | nil => cases h; exact ha
    | cons c2 p'' =>
      rw [List.cons_append, List.cons.injEq] at hq
      obtain ⟨-, rfl, hq⟩ := hq
      cases p'' with
      | nil => cases h; exact ha
      | cons c3 p3 =>
        rw [List.cons_append, List.cons.injEq] at hq
        obtain ⟨rfl, -⟩ := hq
        have h' : (scanChar (k, .ended) c3).bind (scan · p3) = some b := h
        rw [hx k] at h'
        cases h'

theorem scan_pieces {ps : List (List Char)} (hps : ∀ p ∈ ps, p ≠ [] ∧ ∃ cs, Keyed cs ∧ p <+: cs)
    {a b : Nat × Mode} (ha : 0 < a.1) (h : scan a ps.flatten = some b) : 0 < b.1 := by
  induction ps generalizing a with
  | nil => cases h; exact ha
  | cons p ps ih =>
    rw [List.flatten_cons, scan_append] at h
    obtain ⟨a', ha', h'⟩ := Option.bind_eq_some_iff.mp h
    obtain ⟨h0, cs, hk, hp⟩ := hps p List.mem_cons_self
    exact ih (fun p hp => hps p (List.mem_cons_of_mem _ hp)) (scan_piece hk hp h0 ha ha') h'

/-- Text that runs into the next text does not parse. -/
theorem parse_joined {p q : List Char} {ps : List (List Char)}
    (hps : ∀ r ∈ p :: q :: ps, r ≠ [] ∧ ∃ cs, Keyed cs ∧ r <+: cs) :
    parse (p :: q :: ps).flatten = none := by
  cases h : parse (p :: q :: ps).flatten with
  | none => rfl
  | some v =>
    exfalso
    obtain ⟨e, -, he⟩ := scan_of_parse h
    rw [List.flatten_cons, scan_append] at he
    obtain ⟨a, ha, he⟩ := Option.bind_eq_some_iff.mp he
    obtain ⟨h0, cs, ⟨m, x, t, hcs, -, -⟩, hp⟩ := hps p List.mem_cons_self
    have hrest : ∀ r ∈ q :: ps, r ≠ [] ∧ ∃ cs, Keyed cs ∧ r <+: cs :=
      fun r hr => hps r (List.mem_cons_of_mem _ hr)
    rw [hcs] at hp
    by_cases hne : p = print (.obj m)
    · -- after a whole object, an opening bracket is not white space
      rw [hne, scan_obj] at ha
      cases ha
      obtain ⟨hq0, cs', ⟨-, x', t', -, hopen, -⟩, hq⟩ := hrest q List.mem_cons_self
      obtain ⟨c, q', rfl⟩ := List.exists_cons_of_ne_nil hq0
      obtain ⟨r, hr⟩ := hq
      rw [hopen, List.cons_append, List.cons.injEq] at hr
      have hw := isWs_of_scan_ended he c (by simp)
      rw [hr.1] at hw
      simp [isWs] at hw
    · obtain ⟨b, hb, hd⟩ := scan_prefix hp h0 hne
      rw [ha] at hb
      cases hb
      exact absurd (scan_pieces hrest hd he) (Nat.lt_irrefl 0)

end Json
end Kit
