import Nockmark.Kit.Html
import Nockmark.Registry.Board
import Nockmark.Registry.Submit

/-!
# Registry.Page

The rows of the board page (`registry/static/index.html`).

A row is one HTML string, which the script assigns to `innerHTML`. The hardware string gets into its
cell through `textContent`, afterwards; the prover version is part of the HTML. The server bounds
the lengths of both, and nothing else about them.

* `Js`: what the page leaves to the engine's numbers.
* `zkRow_closed`, `aiRow_closed`: up to the prover version a template is whole tags and text.
* `OnlyText`: a row with the tags of its template, in which the prover version is text, up to its
  character references.
* `onlyText_iff`: exactly the prover versions without a `<` that goes with its next character.
* `img_reaches_page`: a tag in a prover version.
-/

namespace Nockmark
namespace Registry

open Kernel (RegistryState RunRecord)
open Kit.Html (Closed NotOpening tokenize markup hasOpener)

/-! ### Numbers -/

/-- What the script does with numbers, as doubles: how they print, and what is computed. What is
printed are digits, signs, dots and letters. -/
structure Js where
  double : ℚ → ℚ
  log2 : ℚ → ℚ
  round : ℚ → ℚ
  toString : ℚ → List Char
  toFixed : ℕ → ℚ → List Char
  toPrecision : ℕ → ℚ → List Char
  toExponential : ℕ → ℚ → List Char
  toString_plain : ∀ v, '<' ∉ toString v
  toFixed_plain : ∀ d v, '<' ∉ toFixed d v
  toPrecision_plain : ∀ d v, '<' ∉ toPrecision d v
  toExponential_plain : ∀ d v, '<' ∉ toExponential d v

def dec (n : ℕ) : List Char := (Kit.dec n).toList

def Js.fmt (js : Js) : Option ℚ → List Char
  | none => ['—']
  | some v => if v < 1 then js.toFixed 3 v else js.toFixed 1 v

def Js.human (js : Js) (v : ℚ) : List Char :=
  if 10 ^ 9 ≤ v then js.toPrecision 3 (js.double (v / 10 ^ 9)) ++ ['B']
  else if 10 ^ 6 ≤ v then js.toPrecision 3 (js.double (v / 10 ^ 6)) ++ ['M']
  else if 10 ^ 3 ≤ v then js.toPrecision 3 (js.double (v / 10 ^ 3)) ++ ['k']
  else js.toPrecision 3 v

/-- A number that the entry may lack. -/
def Js.tier (js : Js) : Option ℚ → List Char
  | none => ['—']
  | some v =>
    let lg := js.log2 v
    if lg.isInt then ['2', '^'] ++ js.toString lg else js.human v

/-! ### Sigils -/

/-- `c.charCodeAt(0)` -/
def charCode (c : Char) : UInt32 := if c.val < 0x10000 then c.val else (c.val >>> 10) + 0xD7C0

def seedHash (seed : List Char) : UInt32 :=
  seed.foldl (fun h c => (h ^^^ charCode c) * 0x01000193) 0x811c9dc5

def next (h : UInt32) : UInt32 := h * 0x2c1b3c6d + 0x297a2d39

/-- `n / 2` as the script prints it. -/
def half (n : ℕ) : List Char := if n % 2 = 0 then dec (n / 2) else dec (n / 2) ++ ['.', '5']

/-- `rotate(…)` by `r` quarters around the middle of the cell at `x` and `y`. -/
def rotate (x y r : ℕ) : List Char :=
  " transform=\"rotate(".toList ++ dec (r * 90) ++ [' '] ++ half (2 * x + 11) ++ [' '] ++
    half (2 * y + 11) ++ ")\"/>".toList

def circle (x y : ℕ) (rest : String) : List Char :=
  "<circle cx=\"".toList ++ half (2 * x + 11) ++ "\" cy=\"".toList ++ half (2 * y + 11) ++
    rest.toList

def draw : ℕ → ℕ → ℕ → ℕ → List Char
  | 0, x, y, _ => circle x y "\" r=\"4.5\" fill=\"currentColor\"/>"
  | 1, x, y, _ =>
    circle x y "\" r=\"4\" fill=\"none\" stroke=\"currentColor\" stroke-width=\"1.5\"/>"
  | 2, x, y, r =>
    "<path d=\"M ".toList ++ half (2 * x + 2) ++ [' '] ++ half (2 * y + 11) ++
      " A 4.5 4.5 0 0 1 ".toList ++ half (2 * x + 20) ++ [' '] ++ half (2 * y + 11) ++
      " Z\" fill=\"currentColor\"".toList ++ rotate x y r
  | 3, x, y, r =>
    "<path d=\"M ".toList ++ half (2 * x + 3) ++ [' '] ++ half (2 * y + 19) ++
      " A 8 8 0 0 1 ".toList ++ half (2 * x + 19) ++ [' '] ++ half (2 * y + 3) ++
      "\" fill=\"none\" stroke=\"currentColor\" stroke-width=\"1.5\"".toList ++ rotate x y r
  | 4, x, y, r =>
    "<line x1=\"".toList ++ half (2 * x + 3) ++ "\" y1=\"".toList ++ half (2 * y + 19) ++
      "\" x2=\"".toList ++ half (2 * x + 19) ++ "\" y2=\"".toList ++ half (2 * y + 3) ++
      "\" stroke=\"currentColor\" stroke-width=\"1.5\"".toList ++ rotate x y r
  | _, x, y, _ => circle x y "\" r=\"1.6\" fill=\"currentColor\"/>"

/-- The glyphs at the given places, each chosen by the next state of the generator. -/
def glyphs : UInt32 → List (ℕ × ℕ) → List Char
  | _, [] => []
  | h, (x, y) :: places =>
    draw (next h % 6).toNat x y ((next h >>> 8) % 4).toNat ++ glyphs (next h) places

def svgOpen : List Char :=
  "<svg width=\"22\" height=\"22\" viewBox=\"0 0 22 22\" role=\"img\"".toList ++
    " aria-label=\"challenge sigil\">".toList

def sigil (seed : List Char) : List Char :=
  svgOpen ++ glyphs (seedHash seed) [(0, 0), (11, 0), (0, 11), (11, 11)] ++ "</svg>".toList

/-! ### Rows -/

/-- The HTML of a row around the prover version, and what its cells are given as `textContent`. -/
structure Row where
  before : List Char
  proverVersion : List Char
  after : List Char
  texts : List (String × String)

/-- What is assigned to `innerHTML`. -/
def Row.html (row : Row) : List Char := row.before ++ row.proverVersion ++ row.after

/-- `<td class="…">…</td>` -/
def td (cls : String) (content : List Char) : List Char :=
  "<td class=\"".toList ++ cls.toList ++ "\">".toList ++ content ++ "</td>".toList

def zkRow (js : Js) (i : ℕ) (e : LeaderboardEntry) : Row where
  before :=
    td "rank" (dec (i + 1)) ++ td "sigil" (sigil (js.toString (js.double e.run.nonce))) ++
      td "hw" [] ++ td "num verified" (js.toFixed 4 (js.double e.proofsPerSec)) ++
      td "num quiet" (js.toFixed 4 (js.double e.selfReportedPps)) ++
      td "num" (js.toString (js.double e.run.k)) ++ "<td class=\"quiet\">".toList
  proverVersion := e.run.proverVersion.toList
  after := "</td>".toList ++ td "num" (js.fmt (e.estNockPerDay.map js.double))
  texts := [(".hw", e.run.hardware)]

/-- `sigmaFrac` is the entry's figure for one standard deviation. -/
def aiRow (js : Js) (i : ℕ) (e : AiLeaderboardEntry) (sigmaFrac : ℚ) : Row where
  before :=
    td "rank" (dec (i + 1)) ++ td "hw" [] ++ td "quiet stmt" [] ++
      td "num quiet" (js.tier (some (js.double e.rates.expectedAttemptsPerWin))) ++
      td "num verified" (js.human (js.double e.rates.verifiedMacPerSecLb)) ++
      td "num quiet" (js.human (js.double e.rates.grindMacPerSec)) ++
      td "num quiet" (js.toExponential 2 (js.double e.rates.zkAttemptEquivPerSec)) ++
      td "num quiet" (['±'] ++ js.toString (js.round (js.double (sigmaFrac * 100))) ++ ['%']) ++
      "<td class=\"quiet\">".toList
  proverVersion := e.run.proverVersion.toList
  after := "</td>".toList
  texts :=
    [(".hw", e.run.hardware),
      (".stmt", if e.run.statement.asStr = "canonical-moe" then "canonical MoE" else "dense")]

/-- The row has the tags of its template, and every character of the prover version is text. That is
text up to character references, which stay undecoded here: a browser shows `&lt;` as `<`. -/
structure OnlyText (row : Row) : Prop where
  text : tokenize row.html =
    tokenize row.before ++ row.proverVersion.map .char ++ tokenize row.after
  tags : markup (tokenize row.html) = markup (tokenize (row.before ++ row.after))

/-! ### The templates are closed -/

theorem dec_plain (n : ℕ) : '<' ∉ dec n := fun h => absurd (Kit.dec_digits n '<' h) (by decide)

theorem draw_closed : ∀ k < 6, ∀ x ∈ [0, 11], ∀ y ∈ [0, 11], ∀ r < 4, Closed (draw k x y r) := by
  decide +kernel

theorem glyphs_closed (h : UInt32) {places : List (ℕ × ℕ)}
    (hp : ∀ p ∈ places, p.1 ∈ [0, 11] ∧ p.2 ∈ [0, 11]) : Closed (glyphs h places) := by
  induction places generalizing h with
  | nil => rfl
  | cons p places ih =>
    obtain ⟨hx, hy⟩ := hp p List.mem_cons_self
    have hk : (next h % 6).toNat < 6 := by
      rw [UInt32.toNat_mod]
      exact Nat.mod_lt _ (by decide)
    have hr : ((next h >>> 8) % 4).toNat < 4 := by
      rw [UInt32.toNat_mod]
      exact Nat.mod_lt _ (by decide)
    exact (draw_closed _ hk _ hx _ hy _ hr).append
      (ih _ fun q hq => hp q (List.mem_cons_of_mem _ hq))

theorem sigil_closed (seed : List Char) : Closed (sigil seed) := by
  have hopen : Closed svgOpen := by decide +kernel
  have hclose : Closed "</svg>".toList := by decide +kernel
  exact (hopen.append (glyphs_closed _ (by decide))).append hclose

/-- The classes of the cells. -/
def classes : List String :=
  ["rank", "sigil", "hw", "num verified", "num quiet", "num", "quiet", "quiet stmt"]

theorem tdOpen_closed : ∀ cls ∈ classes,
    Closed ("<td class=\"".toList ++ cls.toList ++ "\">".toList) := by
  decide +kernel

theorem td_closed (cls : String) (hcls : cls ∈ classes) {content : List Char}
    (h : Closed content) : Closed (td cls content) :=
  ((tdOpen_closed cls hcls).append h).append (by decide)

section Plain

variable (js : Js)

theorem human_plain (v : ℚ) : '<' ∉ js.human v := by
  have hsuffix : ∀ w (c : Char), c ≠ '<' → '<' ∉ js.toPrecision 3 w ++ [c] := by
    intro w c hc
    rw [List.mem_append, not_or]
    exact ⟨js.toPrecision_plain 3 w, by simpa using hc.symm⟩
  unfold Js.human
  split
  · exact hsuffix _ 'B' (by decide)
  split
  · exact hsuffix _ 'M' (by decide)
  split
  · exact hsuffix _ 'k' (by decide)
  · exact js.toPrecision_plain 3 v

theorem tier_plain (v : Option ℚ) : '<' ∉ js.tier v := by
  cases v with
  | none => simp [Js.tier]
  | some v =>
    simp only [Js.tier]
    split
    · simpa using js.toString_plain (js.log2 v)
    · exact human_plain js v

end Plain

theorem td_plain (cls : String) (hcls : cls ∈ classes) {content : List Char}
    (h : '<' ∉ content) : Closed (td cls content) :=
  td_closed cls hcls (Kit.Html.closed_of_plain h)

theorem zkRow_closed (js : Js) (i : ℕ) (e : LeaderboardEntry) : Closed (zkRow js i e).before := by
  have hrank : Closed (td "rank" (dec (i + 1))) := td_plain "rank" (by simp [classes]) (dec_plain _)
  have hsigil := td_closed "sigil" (by simp [classes])
    (sigil_closed (js.toString (js.double e.run.nonce)))
  have hhw : Closed (td "hw" []) := td_plain "hw" (by simp [classes]) (by simp)
  have hrate := td_plain "num verified" (by simp [classes])
    (js.toFixed_plain 4 (js.double e.proofsPerSec))
  have hself := td_plain "num quiet" (by simp [classes])
    (js.toFixed_plain 4 (js.double e.selfReportedPps))
  have hk := td_plain "num" (by simp [classes]) (js.toString_plain (js.double e.run.k))
  exact (((((hrank.append hsigil).append hhw).append hrate).append hself).append hk).append
    (by decide)

theorem aiRow_closed (js : Js) (i : ℕ) (e : AiLeaderboardEntry) (sigmaFrac : ℚ) :
    Closed (aiRow js i e sigmaFrac).before := by
  have hrank : Closed (td "rank" (dec (i + 1))) := td_plain "rank" (by simp [classes]) (dec_plain _)
  have hhw : Closed (td "hw" []) := td_plain "hw" (by simp [classes]) (by simp)
  have hstmt : Closed (td "quiet stmt" []) := td_plain "quiet stmt" (by simp [classes]) (by simp)
  have htier := td_plain "num quiet" (by simp [classes])
    (tier_plain js (some (js.double e.rates.expectedAttemptsPerWin)))
  have hrate := td_plain "num verified" (by simp [classes])
    (human_plain js (js.double e.rates.verifiedMacPerSecLb))
  have hgrind := td_plain "num quiet" (by simp [classes])
    (human_plain js (js.double e.rates.grindMacPerSec))
  have hequiv := td_plain "num quiet" (by simp [classes])
    (js.toExponential_plain 2 (js.double e.rates.zkAttemptEquivPerSec))
  have hsigma : Closed (td "num quiet"
      (['±'] ++ js.toString (js.round (js.double (sigmaFrac * 100))) ++ ['%'])) :=
    td_plain "num quiet" (by simp [classes]) (by simp [js.toString_plain])
  exact (((((((hrank.append hhw).append hstmt).append htier).append hrate).append hgrind).append
    hequiv).append hsigma).append (by decide)

/-- A template that is whole tags and text up to the prover version, and goes on with a tag. -/
theorem onlyText_row {row : Row} (hbefore : Closed row.before) {rest : List Char}
    (hafter : row.after = '<' :: rest) : OnlyText row ↔ hasOpener row.proverVersion = false := by
  have hnot : NotOpening row.after := by
    rw [hafter]
    rintro c hc
    cases hc
    decide
  have hne : row.after ≠ [] := by simp [hafter]
  have hiff : tokenize row.html =
      tokenize row.before ++ row.proverVersion.map .char ++ tokenize row.after ↔
        hasOpener row.proverVersion = false := Kit.Html.tokens_text_iff hbefore hnot hne
  constructor
  · exact fun h => hiff.mp h.text
  · intro h
    have htext := hiff.mpr h
    refine ⟨htext, ?_⟩
    rw [htext, hbefore.tokenize_append]
    simp

/-- For every row of either board: the template's tags are the row's, and the client's text is text,
if and only if no `<` in the prover version stands before a letter, `/`, `!` or `?`. The hardware
string makes no difference to the HTML. -/
theorem onlyText_iff (js : Js) (i : ℕ) :
    (∀ e : LeaderboardEntry,
      (OnlyText (zkRow js i e) ↔ hasOpener e.run.proverVersion.toList = false) ∧
      ∀ hardware, (zkRow js i { e with run := { e.run with hardware } }).html =
        (zkRow js i e).html) ∧
    ∀ (e : AiLeaderboardEntry) (sigmaFrac : ℚ),
      (OnlyText (aiRow js i e sigmaFrac) ↔ hasOpener e.run.proverVersion.toList = false) ∧
      ∀ hardware, (aiRow js i { e with run := { e.run with hardware } } sigmaFrac).html =
        (aiRow js i e sigmaFrac).html := by
  constructor
  · exact fun e => ⟨onlyText_row (zkRow_closed js i e) rfl, fun _ => rfl⟩
  · exact fun e sigmaFrac => ⟨onlyText_row (aiRow_closed js i e sigmaFrac) rfl, fun _ => rfl⟩

/-! ### A tag in a prover version -/

/-- A whole number, or a figure with the given number of decimals. -/
def fixed (d : ℕ) (v : ℚ) : List Char :=
  let n := (v * 10 ^ d + 1 / 2).floor.toNat
  if d = 0 then dec n
  else dec (n / 10 ^ d) ++ ['.'] ++
    List.replicate (d - (dec (n % 10 ^ d)).length) '0' ++ dec (n % 10 ^ d)

theorem fixed_plain (d : ℕ) (v : ℚ) : '<' ∉ fixed d v := by
  simp only [fixed]
  split
  · exact dec_plain _
  · simp [dec_plain]

/-- Numbers as a ZK row prints them. -/
def plainJs : Js where
  double := id
  log2 v := Nat.log2 v.floor.toNat
  round v := (v + 1 / 2).floor
  toString := fixed 0
  toFixed := fixed
  toPrecision := fixed
  toExponential := fixed
  toString_plain := fixed_plain 0
  toFixed_plain := fixed_plain
  toPrecision_plain := fixed_plain
  toExponential_plain := fixed_plain

/-- One proof, with a tag for a prover version. -/
def imgRun : RunSubmission := { oneProof "7" with proverVersion := "<img src=x onerror=alert(1)>" }

def imgRecord : RunRecord :=
  ⟨0, 7, "m1-max", "<img src=x onerror=alert(1)>", 1, 900, 0, Kernel.s1⟩

theorem imgRun_recorded : ∃ reply s',
    submitRun (provesOnly "7") 1 minted7 0 Kernel.s1 (.ok imgRun) = some (reply, s') ∧
      reply.status = 200 ∧ Kernel.leaderboard s' = .ok [imgRecord] :=
  ⟨_, _, rfl, rfl, rfl⟩

/-- A submission that the server accepts puts its prover version on the page as a tag. -/
theorem img_reaches_page :
    ¬ ∀ (zk : ZkEnv) (k : UInt64) (s s' : RegistryState) (eny now : Nat) (sub : RunSubmission)
      (reply : Reply), submitRun zk k s eny now (.ok sub) = some (reply, s') →
      reply.status = 200 → ∀ (econ : Econ) (entries : List LeaderboardEntry),
      leaderboard econ s' = .ok entries → ∀ (js : Js) (i : ℕ), ∀ e ∈ entries,
      OnlyText (zkRow js i e) := by
  intro h
  obtain ⟨reply, s', hsub, hok, hruns⟩ := imgRun_recorded
  let econ : Econ := ⟨none, 150⟩
  have hboard : leaderboard econ s' = .ok (board econ [imgRecord]) := by rw [leaderboard, hruns]
  have hmem : toEntry econ imgRecord ∈ board econ [imgRecord] := by
    rw [board, (Kit.Ranking.rank_perm _ _).mem_iff]
    exact List.mem_singleton_self _
  have honly := h _ _ _ _ _ _ _ _ hsub hok econ _ hboard plainJs 0 _ hmem
  have hopener := (onlyText_row (zkRow_closed plainJs 0 (toEntry econ imgRecord)) rfl).mp honly
  exact absurd hopener (by decide)

end Registry
end Nockmark
