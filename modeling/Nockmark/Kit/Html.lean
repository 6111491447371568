import Mathlib.Data.List.Basic

/-!
# Kit.Html

The tokens of HTML text, as a browser's tokenizer makes them from its data state.

States and transitions are the HTML standard's; where a state reconsumes a character, its step is
the step of the state it goes to. Character references stay as they are written: none of them
begins or ends a tag. Raw text, which a tree builder asks for after a `script` tag and its like, and
CDATA sections, which exist in foreign content alone, are left out.

* `step_inMarkup`: inside markup, a step makes no token, or one that is no character and ends it.
* `Closed`: text that leaves the tokenizer where it found it.
* `tokens_text_iff`: text between two closed pieces stays text if and only if no `<` in it stands
  before a letter, `/`, `!` or `?`.
-/

namespace Kit
namespace Html

structure Tag where
  isEnd : Bool
  name : List Char
  attrs : List (List Char × List Char)
  selfClosing : Bool
  deriving DecidableEq

inductive Token where
  | char (c : Char)
  | tag (t : Tag)
  | comment (data : List Char)
  | doctype (data : List Char)
  /-- `</>`, which disappears -/
  | dropped
  deriving DecidableEq

inductive State where
  | data
  | tagOpen
  | endTagOpen
  | tagName (t : Tag)
  | beforeAttrName (t : Tag)
  | attrName (t : Tag) (name : List Char)
  | afterAttrName (t : Tag) (name : List Char)
  | beforeAttrValue (t : Tag) (name : List Char)
  | attrValue (quote : Char) (t : Tag) (name value : List Char)
  | unquoted (t : Tag) (name value : List Char)
  | afterAttrValue (t : Tag)
  | selfClosing (t : Tag)
  | bogusComment (data : List Char)
  | markupDeclaration (data : List Char)
  | comment (data : List Char)
  | doctype (data : List Char)
  deriving DecidableEq

/-! ### Steps -/

/-- A carriage return reads as a newline. -/
def isSpace (c : Char) : Bool := c = '\t' || c = '\n' || c = '\x0c' || c = '\r' || c = ' '

def replaceNull (c : Char) : Char := if c = '\x00' then '\uFFFD' else c

/-- A character of a name. -/
def fold (c : Char) : Char := (replaceNull c).toLower

/-- The first attribute of a name stays. -/
def Tag.attr (t : Tag) (name value : List Char) : Tag :=
  if t.attrs.any (·.1 = name) then t else { t with attrs := t.attrs ++ [(name, value)] }

def emit (t : Token) : State × List Token := (.data, [t])

def dataStep (c : Char) : State × List Token :=
  if c = '<' then (.tagOpen, []) else (.data, [.char c])

def tagNameStep (t : Tag) (c : Char) : State × List Token :=
  if isSpace c then (.beforeAttrName t, [])
  else if c = '/' then (.selfClosing t, [])
  else if c = '>' then emit (.tag t)
  else (.tagName { t with name := t.name ++ [fold c] }, [])

def beforeAttrNameStep (t : Tag) (c : Char) : State × List Token :=
  if isSpace c then (.beforeAttrName t, [])
  else if c = '/' then (.selfClosing t, [])
  else if c = '>' then emit (.tag t)
  else (.attrName t [fold c], [])

def afterAttrNameStep (t : Tag) (name : List Char) (c : Char) : State × List Token :=
  if isSpace c then (.afterAttrName t name, [])
  else if c = '/' then (.selfClosing (t.attr name []), [])
  else if c = '=' then (.beforeAttrValue t name, [])
  else if c = '>' then emit (.tag (t.attr name []))
  else (.attrName (t.attr name []) [fold c], [])

def attrNameStep (t : Tag) (name : List Char) (c : Char) : State × List Token :=
  if isSpace c || c = '/' || c = '>' then afterAttrNameStep t name c
  else if c = '=' then (.beforeAttrValue t name, [])
  else (.attrName t (name ++ [fold c]), [])

def unquotedStep (t : Tag) (name value : List Char) (c : Char) : State × List Token :=
  if isSpace c then (.beforeAttrName (t.attr name value), [])
  else if c = '>' then emit (.tag (t.attr name value))
  else (.unquoted t name (value ++ [replaceNull c]), [])

def beforeAttrValueStep (t : Tag) (name : List Char) (c : Char) : State × List Token :=
  if isSpace c then (.beforeAttrValue t name, [])
  else if c = '"' || c = '\'' then (.attrValue c t name [], [])
  else if c = '>' then emit (.tag (t.attr name []))
  else unquotedStep t name [] c

def attrValueStep (quote : Char) (t : Tag) (name value : List Char) (c : Char) :
    State × List Token :=
  if c = quote then (.afterAttrValue (t.attr name value), [])
  else (.attrValue quote t name (value ++ [replaceNull c]), [])

def selfClosingStep (t : Tag) (c : Char) : State × List Token :=
  if c = '>' then emit (.tag { t with selfClosing := true }) else beforeAttrNameStep t c

def bogusCommentStep (data : List Char) (c : Char) : State × List Token :=
  if c = '>' then emit (.comment data) else (.bogusComment (data ++ [replaceNull c]), [])

/-- A comment without the dashes that may end it. -/
def commentData (data : List Char) : List Char :=
  if ['-', '-', '!'].isSuffixOf data then data.dropLast.dropLast.dropLast
  else if ['-', '-'].isSuffixOf data then data.dropLast.dropLast
  else if ['-'].isSuffixOf data then data.dropLast
  else data

/-- After `-->` or `--!>` a comment is over; so is `<!-->`, and so is `<!--->`. -/
def commentStep (data : List Char) (c : Char) : State × List Token :=
  if c = '>' && (['-', '-'].isSuffixOf data || ['-', '-', '!'].isSuffixOf data || data = [] ||
      data = ['-']) then emit (.comment (commentData data))
  else (.comment (data ++ [replaceNull c]), [])

/-- In every state of a doctype the next `>` ends it. -/
def doctypeStep (data : List Char) (c : Char) : State × List Token :=
  if c = '>' then emit (.doctype data) else (.doctype (data ++ [replaceNull c]), [])

/-- After `<!`, the characters so far being the front of `--` or of `doctype`. -/
def markupDeclarationStep (data : List Char) (c : Char) : State × List Token :=
  let seen := (data ++ [c]).map Char.toLower
  if seen = ['-', '-'] then (.comment [], [])
  else if seen = "doctype".toList then (.doctype [], [])
  else if seen.isPrefixOf ['-', '-'] || seen.isPrefixOf "doctype".toList then
    (.markupDeclaration (data ++ [c]), [])
  else bogusCommentStep data c

def endTagOpenStep (c : Char) : State × List Token :=
  if c.isAlpha then tagNameStep ⟨true, [], [], false⟩ c
  else if c = '>' then emit .dropped
  else bogusCommentStep [] c

def tagOpenStep (c : Char) : State × List Token :=
  if c = '!' then (.markupDeclaration [], [])
  else if c = '/' then (.endTagOpen, [])
  else if c.isAlpha then tagNameStep ⟨false, [], [], false⟩ c
  else if c = '?' then bogusCommentStep [] c
  else ((dataStep c).1, .char '<' :: (dataStep c).2)

def step : State → Char → State × List Token
  | .data, c => dataStep c
  | .tagOpen, c => tagOpenStep c
  | .endTagOpen, c => endTagOpenStep c
  | .tagName t, c => tagNameStep t c
  | .beforeAttrName t, c => beforeAttrNameStep t c
  | .attrName t name, c => attrNameStep t name c
  | .afterAttrName t name, c => afterAttrNameStep t name c
  | .beforeAttrValue t name, c => beforeAttrValueStep t name c
  | .attrValue quote t name value, c => attrValueStep quote t name value c
  | .unquoted t name value, c => unquotedStep t name value c
  | .afterAttrValue t, c => beforeAttrNameStep t c
  | .selfClosing t, c => selfClosingStep t c
  | .bogusComment data, c => bogusCommentStep data c
  | .markupDeclaration data, c => markupDeclarationStep data c
  | .comment data, c => commentStep data c
  | .doctype data, c => doctypeStep data c

/-- At the end of the text an unfinished tag is lost, and an unfinished comment is one. -/
def finish : State → List Token
  | .tagOpen => [.char '<']
  | .endTagOpen => [.char '<', .char '/']
  | .bogusComment data => [.comment data]
  | .markupDeclaration data => [.comment data]
  | .comment data => [.comment (commentData data)]
  | .doctype data => [.doctype data]
  | _ => []

def run (s : State) : List Char → State × List Token
  | [] => (s, [])
  | c :: cs => ((run (step s c).1 cs).1, (step s c).2 ++ (run (step s c).1 cs).2)

/-- The tokens of a text that is read from the state `s` to its end. -/
def tokensFrom (s : State) (cs : List Char) : List Token := (run s cs).2 ++ finish (run s cs).1

def tokenize (cs : List Char) : List Token := tokensFrom .data cs

/-- What is no character: tags with their attributes, comments, and what disappears. -/
def markup (ts : List Token) : List Token := ts.filter fun
  | .char _ => false
  | _ => true

example : tokenize "<TD class=x>1 < 2</td>".toList =
    [.tag ⟨false, ['t', 'd'], [("class".toList, ['x'])], false⟩, .char '1', .char ' ', .char '<',
      .char ' ', .char '2', .tag ⟨true, ['t', 'd'], [], false⟩] := by decide

/-! ### Runs -/

theorem run_append (s : State) (cs ds : List Char) :
    run s (cs ++ ds) =
      ((run (run s cs).1 ds).1, (run s cs).2 ++ (run (run s cs).1 ds).2) := by
  induction cs generalizing s with
  | nil => rfl
  | cons c cs ih => rw [List.cons_append, run, ih, run, List.append_assoc]

theorem tokensFrom_append (s : State) (cs ds : List Char) :
    tokensFrom s (cs ++ ds) = (run s cs).2 ++ tokensFrom (run s cs).1 ds := by
  rw [tokensFrom, run_append, tokensFrom, List.append_assoc]

theorem tokensFrom_cons (s : State) (c : Char) (cs : List Char) :
    tokensFrom s (c :: cs) = (step s c).2 ++ tokensFrom (step s c).1 cs := by
  rw [tokensFrom, run, tokensFrom, List.append_assoc]

/-- Read from the data state, the text leads back to it. -/
def Closed (cs : List Char) : Prop := (run .data cs).1 = .data

instance (cs : List Char) : Decidable (Closed cs) := by unfold Closed; infer_instance

theorem Closed.append {cs ds : List Char} (h : Closed cs) (hd : Closed ds) : Closed (cs ++ ds) := by
  unfold Closed at *
  rw [run_append, h, hd]

theorem closed_of_plain {cs : List Char} (h : '<' ∉ cs) : Closed cs := by
  induction cs with
  | nil => rfl
  | cons c cs ih =>
    rw [List.mem_cons, not_or] at h
    have hstep : (step .data c).1 = .data := by simp [step, dataStep, Ne.symm h.1]
    rw [Closed, run, hstep]
    exact ih h.2

theorem Closed.tokenize_append {cs : List Char} (h : Closed cs) (ds : List Char) :
    tokenize (cs ++ ds) = tokenize cs ++ tokenize ds := by
  have hcs : tokenize cs = (run .data cs).2 := by
    rw [tokenize, tokensFrom, h]
    exact List.append_nil _
  rw [hcs, tokenize, tokensFrom_append, h, tokenize]

/-! ### Markup -/

/-- The states after `<` and a character that goes with it. -/
def InMarkup : State → Prop
  | .data => False
  | .tagOpen => False
  | .endTagOpen => False
  | _ => True

/-- The end of a piece of markup, or a step inside it. -/
def Within (r : State × List Token) : Prop :=
  (InMarkup r.1 ∧ r.2 = []) ∨ ∃ t, r = emit t ∧ ∀ c, t ≠ .char c

theorem within_go {s : State} (h : InMarkup s) : Within (s, []) := .inl ⟨h, rfl⟩

theorem within_emit_tag (t : Tag) : Within (emit (.tag t)) := .inr ⟨_, rfl, fun _ h => by cases h⟩

theorem within_comment (data : List Char) : Within (emit (.comment data)) :=
  .inr ⟨_, rfl, fun _ h => by cases h⟩

theorem within_tagName (t : Tag) (c : Char) : Within (tagNameStep t c) := by
  unfold tagNameStep
  split
  · exact within_go trivial
  split
  · exact within_go trivial
  split
  · exact within_emit_tag t
  · exact within_go trivial

theorem within_beforeAttrName (t : Tag) (c : Char) : Within (beforeAttrNameStep t c) := by
  unfold beforeAttrNameStep
  split
  · exact within_go trivial
  split
  · exact within_go trivial
  split
  · exact within_emit_tag t
  · exact within_go trivial

theorem within_afterAttrName (t : Tag) (name : List Char) (c : Char) :
    Within (afterAttrNameStep t name c) := by
  unfold afterAttrNameStep
  split
  · exact within_go trivial
  split
  · exact within_go trivial
  split
  · exact within_go trivial
  split
  · exact within_emit_tag _
  · exact within_go trivial

theorem within_attrName (t : Tag) (name : List Char) (c : Char) :
    Within (attrNameStep t name c) := by
  unfold attrNameStep
  split
  · exact within_afterAttrName t name c
  split
  · exact within_go trivial
  · exact within_go trivial

theorem within_unquoted (t : Tag) (name value : List Char) (c : Char) :
    Within (unquotedStep t name value c) := by
  unfold unquotedStep
  split
  · exact within_go trivial
  split
  · exact within_emit_tag _
  · exact within_go trivial

theorem within_beforeAttrValue (t : Tag) (name : List Char) (c : Char) :
    Within (beforeAttrValueStep t name c) := by
  unfold beforeAttrValueStep
  split
  · exact within_go trivial
  split
  · exact within_go trivial
  split
  · exact within_emit_tag _
  · exact within_unquoted t name [] c

theorem within_bogusComment (data : List Char) (c : Char) : Within (bogusCommentStep data c) := by
  unfold bogusCommentStep
  split
  · exact within_comment _
  · exact within_go trivial

theorem within_step {s : State} (h : InMarkup s) (c : Char) : Within (step s c) := by
  cases s with
  | data => cases h
  | tagOpen => cases h
  | endTagOpen => cases h
  | tagName t => exact within_tagName t c
  | beforeAttrName t => exact within_beforeAttrName t c
  | attrName t name => exact within_attrName t name c
  | afterAttrName t name => exact within_afterAttrName t name c
  | beforeAttrValue t name => exact within_beforeAttrValue t name c
  | attrValue quote t name value =>
    simp only [step, attrValueStep]
    split
    · exact within_go trivial
    · exact within_go trivial
  | unquoted t name value => exact within_unquoted t name value c
  | afterAttrValue t => exact within_beforeAttrName t c
  | selfClosing t =>
    simp only [step, selfClosingStep]
    split
    · exact within_emit_tag _
    · exact within_beforeAttrName t c
  | bogusComment data => exact within_bogusComment data c
  | markupDeclaration data =>
    simp only [step, markupDeclarationStep]
    split
    · exact within_go trivial
    split
    · exact within_go trivial
    split
    · exact within_go trivial
    · exact within_bogusComment data c
  | comment data =>
    simp only [step, commentStep]
    split
    · exact within_comment _
    · exact within_go trivial
  | doctype data =>
    simp only [step, doctypeStep]
    split
    · exact .inr ⟨_, rfl, fun _ h => by cases h⟩
    · exact within_go trivial

theorem finish_inMarkup {s : State} (h : InMarkup s) (d : Char) (ts : List Token) :
    finish s ≠ .char d :: ts := by
  cases s with
  | data => cases h
  | tagOpen => cases h
  | endTagOpen => cases h
  | _ => simp [finish]

/-- A step inside markup hands on what holds of the rest. -/
theorem tokens_of_within {r : State × List Token} (h : Within r) {cs : List Char} {d : Char}
    {ts : List Token} (hrest : InMarkup r.1 → tokensFrom r.1 cs ≠ .char d :: ts) :
    r.2 ++ tokensFrom r.1 cs ≠ .char d :: ts := by
  obtain ⟨hin, hnone⟩ | ⟨t, rfl, ht⟩ := h
  · rw [hnone]
    exact hrest hin
  · intro hts
    exact ht d (List.cons.inj hts).1

/-- Read from inside markup, a text makes no character before it makes something else. -/
theorem tokens_inMarkup {s : State} (h : InMarkup s) (cs : List Char) (d : Char)
    (ts : List Token) : tokensFrom s cs ≠ .char d :: ts := by
  induction cs generalizing s with
  | nil => exact finish_inMarkup h d ts
  | cons c cs ih =>
    rw [tokensFrom_cons]
    exact tokens_of_within (within_step h c) ih

theorem tokens_within {s : State} {c : Char} (h : Within (step s c)) (cs : List Char) (d : Char)
    (ts : List Token) : tokensFrom s (c :: cs) ≠ .char d :: ts := by
  rw [tokensFrom_cons]
  exact tokens_of_within h fun hin => tokens_inMarkup hin cs d ts

/-! ### Text -/

/-- After `<`, the character starts a tag, a declaration or a comment. -/
def opens (c : Char) : Bool := c.isAlpha || c = '/' || c = '!' || c = '?'

/-- Somewhere a `<` stands before a character that goes with it. -/
def hasOpener : List Char → Bool
  | [] => false
  | [_] => false
  | c :: d :: cs => (c = '<' && opens d) || hasOpener (d :: cs)

/-- The text starts with no character that goes with a `<` before it. -/
def NotOpening (cs : List Char) : Prop := ∀ c ∈ cs.head?, opens c = false

theorem hasOpener_cons_false {c : Char} {cs : List Char} :
    hasOpener (c :: cs) = false ↔ (c = '<' → NotOpening cs) ∧ hasOpener cs = false := by
  cases cs with
  | nil => simp [hasOpener, NotOpening]
  | cons d cs => simp [hasOpener, NotOpening]

theorem NotOpening.append {cs post : List Char} (h : NotOpening cs) (hpost : NotOpening post) :
    NotOpening (cs ++ post) := by
  cases cs with
  | nil => exact hpost
  | cons c cs => exact h

theorem tokens_lt_plain {c : Char} (h : opens c = false) (cs : List Char) :
    tokensFrom .tagOpen (c :: cs) = .char '<' :: tokensFrom .data (c :: cs) := by
  simp only [opens, Bool.or_eq_false_iff, decide_eq_false_iff_not] at h
  obtain ⟨⟨⟨halpha, hslash⟩, hbang⟩, hquest⟩ := h
  have hstep : step .tagOpen c = ((dataStep c).1, .char '<' :: (dataStep c).2) := by
    simp [step, tagOpenStep, halpha, hslash, hbang, hquest]
  rw [tokensFrom_cons, tokensFrom_cons, hstep]
  rfl

theorem tokens_data_char {c : Char} (h : c ≠ '<') (cs : List Char) :
    tokensFrom .data (c :: cs) = .char c :: tokensFrom .data cs := by
  rw [tokensFrom_cons]
  simp [step, dataStep, h]

theorem tokens_data_lt (cs : List Char) :
    tokensFrom .data ('<' :: cs) = tokensFrom .tagOpen cs := by
  rw [tokensFrom_cons]
  rfl

theorem tokens_lt {cs : List Char} (h : NotOpening cs) :
    tokensFrom .data ('<' :: cs) = .char '<' :: tokensFrom .data cs := by
  rw [tokens_data_lt]
  cases cs with
  | nil => rfl
  | cons c cs => exact tokens_lt_plain (h c rfl) cs

theorem tokens_char {c : Char} {cs : List Char} (h : c = '<' → NotOpening cs) :
    tokenize (c :: cs) = .char c :: tokenize cs := by
  by_cases hc : c = '<'
  · subst hc
    exact tokens_lt (h rfl)
  · exact tokens_data_char hc cs

/-- Characters that open nothing come out as they are. -/
theorem tokens_text {text post : List Char} (h : hasOpener text = false)
    (hpost : NotOpening post) : tokenize (text ++ post) = text.map .char ++ tokenize post := by
  induction text with
  | nil => rfl
  | cons c cs ih =>
    obtain ⟨hc, hcs⟩ := hasOpener_cons_false.mp h
    rw [List.cons_append, tokens_char fun e => (hc e).append hpost, ih hcs]
    rfl

theorem within_tagOpen {c : Char} (h : opens c) (hslash : c ≠ '/') :
    Within (step .tagOpen c) := by
  simp only [step, tagOpenStep, if_neg hslash]
  split
  · exact within_go trivial
  rename_i hbang
  split
  · exact within_tagName _ c
  rename_i halpha
  split
  · exact within_bogusComment [] c
  · rename_i hquest
    simp [opens, halpha, hslash, hbang, hquest] at h

theorem within_endTagOpen (c : Char) : Within (step .endTagOpen c) := by
  simp only [step, endTagOpenStep]
  split
  · exact within_tagName _ c
  split
  · exact .inr ⟨_, rfl, fun _ h => by cases h⟩
  · exact within_bogusComment [] c

/-- A `<` that goes with its next character is no text, if one more character follows. -/
theorem tokens_opened {c : Char} {cs : List Char} (h : opens c) (hcs : cs ≠ []) (d : Char)
    (ts : List Token) : tokenize ('<' :: c :: cs) ≠ .char d :: ts := by
  rw [tokenize, tokens_data_lt]
  by_cases hslash : c = '/'
  · subst hslash
    obtain ⟨e, es, rfl⟩ := List.exists_cons_of_ne_nil hcs
    have hend : tokensFrom .tagOpen ('/' :: e :: es) = tokensFrom .endTagOpen (e :: es) := by
      rw [tokensFrom_cons]
      rfl
    rw [hend]
    exact tokens_within (within_endTagOpen e) es d ts
  · exact tokens_within (within_tagOpen h hslash) cs d ts

theorem tokens_opener {text post : List Char} (h : hasOpener text) (hpost : post ≠ [])
    (ts : List Token) : tokenize (text ++ post) ≠ text.map .char ++ ts := by
  induction text with
  | nil => cases h
  | cons c cs ih =>
    cases cs with
    | nil => simp [hasOpener] at h
    | cons d ds =>
      by_cases hhere : c = '<' ∧ opens d = true
      · obtain ⟨rfl, hd⟩ := hhere
        exact tokens_opened hd (by simp [hpost]) '<' _
      · -- the opener stands further on
        have hlater : hasOpener (d :: ds) = true := by
          simp only [hasOpener, Bool.or_eq_true, Bool.and_eq_true, decide_eq_true_eq] at h
          exact h.resolve_left hhere
        have hc : c = '<' → NotOpening (d :: ds ++ post) := by
          rintro rfl e he
          cases he
          exact Bool.eq_false_iff.mpr fun hd => hhere ⟨rfl, hd⟩
        rw [List.cons_append, tokens_char hc, List.map_cons, List.cons_append]
        exact fun heq => ih hlater (List.cons.inj heq).2

/-- Between two pieces, the first of them closed, a text comes out as its characters if and only if
none of them is a `<` that goes with the next. -/
theorem tokens_text_iff {before text after : List Char} (hbefore : Closed before)
    (hafter : NotOpening after) (hne : after ≠ []) :
    tokenize (before ++ text ++ after) = tokenize before ++ text.map .char ++ tokenize after ↔
      hasOpener text = false := by
  rw [List.append_assoc, hbefore.tokenize_append, List.append_assoc, List.append_cancel_left_eq]
  constructor
  · intro h
    by_contra hopen
    exact tokens_opener (Bool.not_eq_false _ ▸ hopen) hne _ h
  · exact fun h => tokens_text h hafter

@[simp] theorem markup_append (ts us : List Token) : markup (ts ++ us) = markup ts ++ markup us :=
  List.filter_append _ _

@[simp] theorem markup_chars (cs : List Char) : markup (cs.map .char) = [] := by
  simp [markup, List.filter_map, Function.comp_def]

end Html
end Kit
