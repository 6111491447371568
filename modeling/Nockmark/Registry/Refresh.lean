import Nockmark.Kit.JsonScan
import Nockmark.Kit.Journal
import Nockmark.Kit.Machine
import Nockmark.Registry.Board
import Nockmark.Registry.Economics
import Nockmark.Registry.Request

/-!
# Registry.Refresh

The refresh loop of the economics (`registry/src/economics.rs`) and the history that
`GET /economics/history` serves from what it wrote.

Each tick fetches a difficulty, from plain JSON or from the tip of a chain, and keeps it if it is
positive: in the cache, and as a line of a file. A double is read as a rational; `none` where one
is parsed is an infinity or no number. Each append may stop after any of its bytes.

* `fetchGet`, `fetchRpc`: what a response is taken for.
* `refresh`: the loop, as a machine over its ticks.
* `historyPoints_of_stands`: the points of the file are the readable observations.
* `readHistory_refresh`: so what is served are those, from an instant on, thinned.
* `refresh_history`: what cache and history hold after any number of ticks.
-/

namespace Nockmark
namespace Registry

open Kit.Journal (Stands State)
open Kit.Json (Value Members)

/-- What is used of `serde_json` besides: objects, texts, and the line that `json!` prints for an
observation, with what it parses back to. -/
structure EconJson (V : Type) extends HistoryJson V ℚ where
  asObject : V → Option (List (String × V))
  asStr : V → Option String
  isNull : V → Bool
  display : V → String
  line : UInt64 → ℚ → List Char
  value : UInt64 → ℚ → V
  reread : ℚ → ℚ

def EconJson.format {V : Type} (json : EconJson V) : Kit.Journal.Format (UInt64 × ℚ) V :=
  ⟨fun o => json.line o.1 o.2, fun o => json.value o.1 o.2, json.fromStr⟩

structure EconJson.Sound {V : Type} (json : EconJson V) : Prop where
  format : json.format.Sound
  ascii : ∀ t d, ∀ c ∈ json.line t d, c.toNat < 0x80
  time : ∀ t d, json.asU64 (json.index (json.value t d) "t") = some t
  difficulty : ∀ t d, json.asF64 (json.index (json.value t d) "difficulty") = some (json.reread d)

structure EconEnv (V : Type) where
  json : EconJson V
  rnd : ℚ → ℚ
  parseF64 : String → Except String (Option ℚ)
  debug : String → String

/-- The doubles are what `rnd` rounds to, and the numbers of JSON are doubles. A double that was
printed is read back within the fraction `slack` of it, as the parser rounds on its way. -/
structure EconEnv.Sound {V : Type} (env : EconEnv V) (slack : ℚ) : Prop where
  json : env.json.Sound
  rnd_rnd : ∀ x, env.rnd (env.rnd x) = env.rnd x
  asF64_rnd : ∀ v d, env.json.asF64 v = some d → env.rnd d = d
  reread_near : ∀ d, 0 < d → env.rnd d = d → |env.json.reread d - d| ≤ slack * d

inductive Response (V : Type) where
  | sendError (e : String)
  | badJson (e : String)
  | body (v : V)

section Fetch

variable {V : Type} (env : EconEnv V)

/-- The first key that is `difficulty` but for the case of its letters. -/
def difficultyField (v : V) : Option ℚ := do
  let kv ← (← env.json.asObject v).find? fun kv => kv.1.toLower = "difficulty"
  env.json.asF64 kv.2

def fetchGet (url : String) : Response V → Except String ℚ
  | .sendError e => .error s!"GET {url}: {e}"
  | .badJson e => .error s!"bad JSON from {url}: {e}"
  | .body v =>
    match difficultyField env v with
    | some d => .ok d
    | none => .error s!"no numeric \"difficulty\" field at {url}"

/-- `MAX_TIP5_ATOM`, in doubles. -/
def maxTip5Atom : ℚ :=
  let p := env.rnd 18446744069414584321
  env.rnd (env.rnd (env.rnd (env.rnd (p * p) * p) * p) * p)

def difficultyFromTarget (target : String) : Except String ℚ :=
  match env.parseF64 target with
  | .error e => .error s!"unparseable target {env.debug target}: {e}"
  | .ok none => .error s!"target {target} outside (0, p^5)"
  | .ok (some t) =>
    if 0 < t ∧ t < maxTip5Atom env then .ok (env.rnd (maxTip5Atom env / env.rnd (t + 1)))
    else .error s!"target {target} outside (0, p^5)"

def EconJson.get {V : Type} (json : EconJson V) (v : V) (key : String) : Option V := do
  return (← (← json.asObject v).find? fun kv => kv.1 = key).2

/-- `v["result"]["powType"]` -/
def powType (v : V) : Option String :=
  env.json.asStr (env.json.index (env.json.index v "result") "powType")

def fetchTarget (url : String) (v : V) : Except String ℚ :=
  match env.json.asStr (env.json.index (env.json.index v "result") "target") with
  | none => .error s!"no string \"result.target\" field at {url}"
  | some target => difficultyFromTarget env target

def fetchRpc (url : String) : Response V → Except String ℚ
  | .sendError e => .error s!"POST {url}: {e}"
  | .badJson e => .error s!"bad JSON from {url}: {e}"
  | .body v =>
    match (env.json.get v "error").filter fun e => !env.json.isNull e with
    | some err => .error s!"RPC error from {url}: {env.json.display err}"
    | none =>
      match powType env v with
      | none => fetchTarget env url v
      | some "zk-pow" => fetchTarget env url v
      | some other => .error s!"tip is a {other} block — keeping cached ZK difficulty"

end Fetch

/-! ### The loop -/

/-- With `NOCKMARK_ECON_API_KEY` the source is a tip, and without it plain JSON. -/
inductive Source where
  | get
  | rpc
  deriving DecidableEq

/-- A tick: the response, the clock, and how much of the line gets to the file (`none`: the file
does not open). -/
structure Tick (V : Type) where
  response : Response V
  now : UInt64
  bytes : Option ℕ

/-- The cache and the history file. -/
structure Refreshed where
  econ : Option EconParams
  history : Disk

section Loop

variable {V : Type} (env : EconEnv V)

def fetch (src : Source) (url : String) (r : Response V) : Except String ℚ :=
  match src with
  | .get => fetchGet env url r
  | .rpc => fetchRpc env url r

def appendHistory (history : Disk) (t : UInt64) (difficulty : ℚ) : Option ℕ → Disk
  | none => history
  | some n =>
    some (history.getD [] ++ (Kit.Utf8.encode (env.json.line t difficulty ++ ['\n'])).take n)

def Refreshed.step (src : Source) (url : String) (st : Refreshed) (t : Tick V) : Refreshed :=
  match fetch env src url t.response with
  | .error _ => st
  | .ok d =>
    if 0 < d then
      ⟨st.econ.map fun p => { p with difficulty := d },
        appendHistory env st.history t.now d t.bytes⟩
    else st

def refresh (src : Source) (url : String) (econ : Option EconParams) :
    Kit.Machine Refreshed (Tick V) :=
  ⟨⟨econ, none⟩, Refreshed.step env src url⟩

/-- What a tick is kept for. -/
def observed (src : Source) (url : String) (t : Tick V) : Option (UInt64 × ℚ) :=
  match fetch env src url t.response with
  | .error _ => none
  | .ok d => if 0 < d then some (t.now, d) else none

/-- `?hours=`, clamped -/
def historyHours (q : Query) : ℕ :=
  max 1 (min (((q "hours").bind fun s => (parseU64 s).toOption.map UInt64.toNat).getD 168)
    (24 * 90))

/-- `GET /economics/history`: the hours and the points, or a failed read. -/
def economicsHistory (q : Query) (now : UInt64) (history : Disk) :
    Option (ℕ × Except FileError (List (UInt64 × ℚ))) :=
  let hours := historyHours q
  let since := UInt64.ofNat (now.toNat - hours * 3600)
  let file : Except FileError (List UInt8) :=
    match history with
    | none => .error .notFound
    | some bytes => .ok bytes
  (readHistory env.json.toHistoryJson file since 1000).map fun points => (hours, points)

end Loop

/-! ### The points of the file -/

theorem thin_sublist {α : Type} {pts : List α} {cap : ℕ} (hcap : 0 < cap) :
    ∃ out, thin pts cap = some out ∧ out.Sublist pts ∧ out.length ≤ cap ∧
      (pts.length ≤ cap → out = pts) := by
  rcases Nat.lt_or_ge cap pts.length with h | h
  · refine ⟨_, thin_of_lt hcap h, ?_, ?_, fun hle => absurd h (Nat.not_lt.mpr hle)⟩
    · exact List.map_getElem_sublist (Kit.Spread.spread_ascends _)
    · rw [List.length_map, Kit.Spread.length_spread]
      omega
  · exact ⟨pts, if_pos (.inl h), List.Sublist.refl _, h, fun _ => rfl⟩

section Points

variable {V : Type} {env : EconEnv V}

theorem historyPoints_of_stands (hj : env.json.Sound) {bytes : List UInt8}
    {s : State (UInt64 × ℚ)} (h : Stands env.json.format bytes s) {text : List Char}
    (ht : Kit.Utf8.encode text = bytes) (since : UInt64) :
    historyPoints env.json.toHistoryJson text since =
      (s.readable.map fun o => (o.1, env.json.reread o.2)).filter fun p => since ≤ p.1 := by
  have hparse : (Kit.Lines.lines text).filterMap env.json.fromStr =
      s.readable.map fun o => env.json.value o.1 o.2 := Kit.Journal.parse_lines hj.format h ht
  rw [historyPoints, hparse, List.filterMap_map]
  congr 1
  rw [← List.filterMap_eq_map]
  congr 1
  funext o
  simp only [Function.comp, hj.time, hj.difficulty]
  rfl

end Points

/-! ### Every run of the loop -/

section Runs

variable {V : Type} (env : EconEnv V) (src : Source) (url : String)

/-- The appends of a run. -/
def writes (ts : List (Tick V)) : List ((UInt64 × ℚ) × ℕ) :=
  ts.filterMap fun t => (observed env src url t).map fun o => (o, t.bytes.getD 0)

/-- The observations on readable lines of the file, as they read back, from an instant on. -/
def readableFrom (ts : List (Tick V)) (since : UInt64) : List (UInt64 × ℚ) :=
  ((State.empty.writes env.json.format (writes env src url ts)).readable.map
    fun o => (o.1, env.json.reread o.2)).filter fun p => since ≤ p.1

theorem writes_fst (ts : List (Tick V)) :
    (writes env src url ts).map Prod.fst = ts.filterMap (observed env src url) := by
  rw [writes, List.map_filterMap]
  congr 1
  funext t
  cases observed env src url t <;> rfl

variable {env src url}

theorem step_of_observed {st : Refreshed} {t : Tick V} {o : UInt64 × ℚ}
    (h : observed env src url t = some o) : Refreshed.step env src url st t =
      ⟨st.econ.map fun p => { p with difficulty := o.2 },
        appendHistory env st.history o.1 o.2 t.bytes⟩ := by
  unfold observed at h
  unfold Refreshed.step
  cases hf : fetch env src url t.response with
  | error e => rw [hf] at h; cases h
  | ok d =>
    simp only [hf] at h ⊢
    split at h
    · rename_i hd
      cases h
      rw [if_pos hd]
    · cases h

theorem step_of_unobserved {st : Refreshed} {t : Tick V} (h : observed env src url t = none) :
    Refreshed.step env src url st t = st := by
  unfold observed at h
  unfold Refreshed.step
  cases hf : fetch env src url t.response with
  | error e => rfl
  | ok d =>
    simp only [hf] at h ⊢
    split at h
    · cases h
    · rename_i hd
      rw [if_neg hd]

theorem stands_appendHistory (hj : env.json.Sound) {history : Disk} {s : State (UInt64 × ℚ)}
    (h : Stands env.json.format (history.getD []) s) (o : UInt64 × ℚ) (bytes : Option ℕ) :
    Stands env.json.format ((appendHistory env history o.1 o.2 bytes).getD [])
      (s.write env.json.format o (bytes.getD 0)) := by
  cases bytes with
  | none => simpa [appendHistory, State.write] using h
  | some n => exact Kit.Journal.stands_write hj.format h o n

theorem stands_refresh (hj : env.json.Sound) (econ : Option EconParams) (ts : List (Tick V)) :
    Stands env.json.format
      ((((refresh env src url econ).run ⟨econ, none⟩ ts).history).getD [])
      (State.empty.writes env.json.format (writes env src url ts)) := by
  induction ts using List.reverseRecOn with
  | nil => exact Kit.Journal.stands_empty _
  | append_singleton ts t ih =>
    rw [Kit.Machine.run_append, writes, List.filterMap_append, ← writes]
    show Stands _ ((Refreshed.step env src url _ t).history.getD []) _
    cases ho : observed env src url t with
    | none =>
      rw [step_of_unobserved ho]
      simpa [ho] using ih
    | some o =>
      rw [step_of_observed ho]
      have hw := stands_appendHistory hj ih o t.bytes
      simpa [ho, State.writes] using hw

/-- A line can stop anywhere: what is left of it is text. -/
theorem text_refresh (hj : env.json.Sound) (econ : Option EconParams) (ts : List (Tick V)) :
    ∃ text, (((refresh env src url econ).run ⟨econ, none⟩ ts).history).getD [] =
      Kit.Utf8.encode text := by
  induction ts using List.reverseRecOn with
  | nil => exact ⟨[], rfl⟩
  | append_singleton ts t ih =>
    rw [Kit.Machine.run_append]
    show ∃ text, (Refreshed.step env src url _ t).history.getD [] = _
    cases ho : observed env src url t with
    | none =>
      rw [step_of_unobserved ho]
      exact ih
    | some o =>
      rw [step_of_observed ho]
      cases hb : t.bytes with
      | none => exact ih
      | some n =>
        obtain ⟨text, htext⟩ := ih
        have hascii : ∀ c ∈ env.json.line o.1 o.2 ++ ['\n'], c.toNat < 0x80 :=
          List.forall_mem_append.mpr ⟨hj.ascii o.1 o.2, List.forall_mem_singleton.mpr (by decide)⟩
        refine ⟨text ++ (env.json.line o.1 o.2 ++ ['\n']).take n, ?_⟩
        simp only [appendHistory, Option.getD_some]
        rw [htext, Kit.Utf8.take_encode_ascii hascii, Kit.Utf8.encode_append]

theorem cache_refresh (econ : Option EconParams) (ts : List (Tick V)) :
    ((refresh env src url econ).run ⟨econ, none⟩ ts).econ = econ.map fun p =>
      { p with difficulty :=
          (((ts.filterMap (observed env src url)).getLast?).map Prod.snd).getD p.difficulty } := by
  induction ts using List.reverseRecOn with
  | nil => cases econ <;> rfl
  | append_singleton ts t ih =>
    rw [Kit.Machine.run_append]
    show (Refreshed.step env src url _ t).econ = _
    cases ho : observed env src url t with
    | none =>
      rw [step_of_unobserved ho, ih]
      simp [ho]
    | some o =>
      rw [step_of_observed ho, ih]
      cases econ <;> simp [ho]

theorem readHistory_refresh (hj : env.json.Sound) (econ : Option EconParams) (ts : List (Tick V))
    (q : Query) (now : UInt64) :
    economicsHistory env q now ((refresh env src url econ).run ⟨econ, none⟩ ts).history =
      (thin (readableFrom env src url ts (UInt64.ofNat (now.toNat - historyHours q * 3600)))
        1000).map fun points => (historyHours q, .ok points) := by
  obtain ⟨text, ht⟩ := @text_refresh _ env src url hj econ ts
  have hstands := @stands_refresh _ env src url hj econ ts
  have hpts := historyPoints_of_stands hj hstands ht.symm
    (UInt64.ofNat (now.toNat - historyHours q * 3600))
  rw [readableFrom, ← hpts]
  generalize ((refresh env src url econ).run ⟨econ, none⟩ ts).history = history at ht
  cases history with
  | none =>
    obtain rfl : text = [] := Kit.Utf8.encode_injective ht.symm
    rfl
  | some bytes =>
    rw [Option.getD_some] at ht
    rw [ht, economicsHistory]
    simp only [readHistory_encode, Option.map_map]
    rfl

end Runs

theorem historyHours_bounds (q : Query) : 1 ≤ historyHours q ∧ historyHours q ≤ 2160 := by
  unfold historyHours
  omega

theorem le_of_since {now t : UInt64} {n : ℕ} (h : UInt64.ofNat (now.toNat - n) ≤ t) :
    now.toNat ≤ t.toNat + n := by
  have hlt : now.toNat - n < 2 ^ 64 := lt_of_le_of_lt (Nat.sub_le _ _) now.toNat_lt
  rw [UInt64.le_iff_toNat_le, UInt64.toNat_ofNat_of_lt' hlt] at h
  omega

/-- A tip of the AI track is not kept: its target is on another scale. -/
theorem zkTip_of_fetch {V : Type} {env : EconEnv V} {url : String} {r : Response V} {d : ℚ}
    (h : fetchRpc env url r = .ok d) :
    ∃ v, r = .body v ∧ (powType env v = none ∨ powType env v = some "zk-pow") := by
  cases r with
  | sendError e => cases h
  | badJson e => cases h
  | body v =>
    refine ⟨v, rfl, ?_⟩
    simp only [fetchRpc] at h
    split at h
    · cases h
    · split at h
      · rename_i hp; exact .inl hp
      · rename_i hp; exact .inr hp
      · cases h

theorem fetch_of_observed {V : Type} {env : EconEnv V} {src : Source} {url : String} {t : Tick V}
    {o : UInt64 × ℚ} (h : observed env src url t = some o) :
    0 < o.2 ∧ fetch env src url t.response = .ok o.2 := by
  unfold observed at h
  split at h
  · cases h
  · rename_i d hf
    split at h
    · rename_i hd
      cases h
      exact ⟨hd, hf⟩
    · cases h

theorem double_of_fetch {V : Type} {env : EconEnv V} {slack : ℚ} (henv : env.Sound slack)
    {src : Source} {url : String} {r : Response V} {d : ℚ} (h : fetch env src url r = .ok d) :
    env.rnd d = d := by
  cases src with
  | get =>
    cases r with
    | sendError e => cases h
    | badJson e => cases h
    | body v =>
      simp only [fetch, fetchGet] at h
      split at h
      · rename_i d' hd
        cases h
        simp only [difficultyField, Option.bind_eq_bind, Option.bind_eq_some_iff] at hd
        obtain ⟨kvs, -, kv, -, hd⟩ := hd
        exact henv.asF64_rnd _ _ hd
      · cases h
  | rpc =>
    have htarget : ∀ {v d}, fetchTarget env url v = .ok d → env.rnd d = d := by
      intro v d h
      simp only [fetchTarget] at h
      split at h
      · cases h
      simp only [difficultyFromTarget] at h
      split at h
      · cases h
      · cases h
      split at h
      · cases h
        exact henv.rnd_rnd _
      · cases h
    cases r with
    | sendError e => cases h
    | badJson e => cases h
    | body v =>
      simp only [fetch, fetchRpc] at h
      split at h
      · cases h
      split at h
      · exact htarget h
      · exact htarget h
      · cases h

/-- After any number of ticks, with appends that stop anywhere: the cache has the last difficulty
that was observed, and is unconfigured if it was; what is observed is positive, and never the tip of
the AI track. The history that is served are the observations on readable lines that are not older
than the hours asked for, thinned to at most 1000: observations in order, each as near as it reads
back, and all of them if every line got its newline and they are not too many. -/
theorem refresh_history {V : Type} {env : EconEnv V} {slack : ℚ} (henv : env.Sound slack)
    (src : Source) (url : String) (econ : Option EconParams) (ts : List (Tick V)) :
    let st := (refresh env src url econ).run ⟨econ, none⟩ ts
    let seen := ts.filterMap (observed env src url)
    st.econ = econ.map (fun p =>
      { p with difficulty := ((seen.getLast?).map Prod.snd).getD p.difficulty }) ∧
    (∀ t ∈ ts, ∀ o, observed env src url t = some o → 0 < o.2 ∧ (src = .rpc → ∃ v,
      t.response = .body v ∧ (powType env v = none ∨ powType env v = some "zk-pow"))) ∧
    ∀ q now,
      let hours := historyHours q
      let since := UInt64.ofNat (now.toNat - hours * 3600)
      1 ≤ hours ∧ hours ≤ 2160 ∧
      ∃ points, thin (readableFrom env src url ts since) 1000 = some points ∧
        economicsHistory env q now st.history = some (hours, .ok points) ∧
        points.length ≤ 1000 ∧
        points.Sublist (seen.map fun o => (o.1, env.json.reread o.2)) ∧
        (∀ p ∈ points, now.toNat ≤ p.1.toNat + hours * 3600 ∧
          ∃ o ∈ seen, p.1 = o.1 ∧ |p.2 - o.2| ≤ slack * o.2) ∧
        ((∀ t ∈ ts, ∀ o, observed env src url t = some o →
            State.size env.json.format o < t.bytes.getD 0) → seen.length ≤ 1000 →
          points = (seen.map fun o => (o.1, env.json.reread o.2)).filter fun p => since ≤ p.1) := by
  intro st seen
  refine ⟨cache_refresh econ ts, ?_, ?_⟩
  · intro t _ o ho
    obtain ⟨hpos, hf⟩ := fetch_of_observed ho
    refine ⟨hpos, ?_⟩
    rintro rfl
    exact zkTip_of_fetch hf
  · intro q now hours since
    let found := (State.empty.writes env.json.format (writes env src url ts)).readable
    let reread := fun o : UInt64 × ℚ => (o.1, env.json.reread o.2)
    have hfound : found.Sublist seen := by
      have h := Kit.Journal.readable_writes env.json.format .empty (writes env src url ts)
      rw [writes_fst] at h
      exact h
    have hmap : (readableFrom env src url ts since).Sublist (seen.map reread) :=
      (List.filter_sublist).trans (hfound.map reread)
    obtain ⟨points, hthin, hsub, hlen, hall⟩ :=
      @thin_sublist _ (readableFrom env src url ts since) 1000 (by decide)
    obtain ⟨h1, h2⟩ := historyHours_bounds q
    refine ⟨h1, h2, points, hthin, ?_, hlen, hsub.trans hmap, ?_, ?_⟩
    · exact (readHistory_refresh henv.json econ ts q now).trans
        (congrArg (Option.map fun points => (hours, Except.ok points)) hthin)
    · intro p hp
      have hge := (List.mem_filter.mp (hsub.subset hp)).2
      refine ⟨le_of_since (by simpa [since] using hge), ?_⟩
      obtain ⟨o, ho, rfl⟩ := List.mem_map.mp ((hsub.trans hmap).subset hp)
      obtain ⟨t, -, hto⟩ := List.mem_filterMap.mp ho
      obtain ⟨hpos, hf⟩ := fetch_of_observed hto
      exact ⟨o, ho, rfl, henv.reread_near o.2 hpos (double_of_fetch henv hf)⟩
    · intro hwhole hcount
      have heq : found = seen := by
        have h := @Kit.Journal.readable_writes_whole _ _ env.json.format .empty rfl
          (writes env src url ts) (by
            intro w hw
            obtain ⟨t, ht, hto⟩ := List.mem_filterMap.mp hw
            obtain ⟨o, ho, rfl⟩ := Option.map_eq_some_iff.mp hto
            exact hwhole t ht o ho)
        rw [writes_fst] at h
        exact h
      have hle : (readableFrom env src url ts since).length ≤ 1000 := by
        refine le_trans (List.length_filter_le _ _) ?_
        rw [List.length_map]
        exact le_trans hfound.length_le hcount
      rw [hall hle]
      exact congrArg (fun os => (os.map reread).filter fun p => since ≤ p.1) heq

/-! ### A chain of two tips -/

def membersList : Members Value → List (String × Value)
  | .nil => []
  | .cons k v m => (k, v) :: membersList m

def observation (t : UInt64) (d : ℚ) : Members Value :=
  .ofList [("difficulty", .num ⌊d⌋₊), ("t", .num t.toNat)]

/-- The library over natural numbers, which rounds a printed difficulty down. -/
def EconJson.compact : EconJson Value where
  toHistoryJson := .compact
  asObject
    | .obj m => some (membersList m)
    | _ => none
  asStr := Value.asStr
  isNull
    | .null => true
    | _ => false
  display v := String.ofList (Kit.Json.print v)
  line t d := Kit.Json.print (.obj (observation t d))
  value t d := .obj (observation t d)
  reread d := ⌊d⌋₊

theorem observation_eq (t : UInt64) (d : ℚ) : observation t d =
    .cons "difficulty" (.num ⌊d⌋₊) (.cons "t" (.num t.toNat) .nil) := by
  have h0 : Members.insert "difficulty" (Value.num ⌊d⌋₊) .nil =
      .cons "difficulty" (.num ⌊d⌋₊) .nil := rfl
  have h1 : ("difficulty" : String) < "t" := by decide
  rw [observation, Members.ofList, List.foldl_cons, h0, List.foldl_cons, Members.insert_later h1]
  rfl

theorem print_observation (t : UInt64) (d : ℚ) : Kit.Json.print (.obj (observation t d)) =
    "\x7b\"difficulty\":".toList ++ Nat.toDigits 10 ⌊d⌋₊ ++ ",\"t\":".toList ++
      Nat.toDigits 10 t.toNat ++ ['}'] := by
  simp [observation_eq, Kit.Json.print, Kit.Json.printMembers, Kit.Json.printStr,
    Kit.Json.escapeChar]

theorem ascii_toDigits (n : ℕ) : ∀ c ∈ Nat.toDigits 10 n, c.toNat < 0x80 := by
  intro c hc
  have hd := Nat.isDigit_of_mem_toDigits (by omega) (by omega) hc
  simp only [Char.isDigit, Bool.and_eq_true, decide_eq_true_eq] at hd
  exact lt_of_le_of_lt (UInt32.le_iff_toNat_le.mp hd.2) (by decide)

theorem ascii_observation (t : UInt64) (d : ℚ) :
    ∀ c ∈ Kit.Json.print (.obj (observation t d)), c.toNat < 0x80 := by
  simp only [print_observation, List.forall_mem_append]
  exact ⟨⟨⟨⟨by simp, ascii_toDigits _⟩, by simp⟩, ascii_toDigits _⟩, by simp⟩

theorem keyed_observation (t : UInt64) (d : ℚ) :
    Kit.Json.Keyed (Kit.Json.print (.obj (observation t d))) := by
  exact ⟨observation t d, 'd', _, rfl, print_observation t d, fun _ => rfl⟩

theorem compact_sound : EconJson.compact.Sound where
  format :=
    { opens := fun o => ⟨_, print_observation o.1 o.2⟩
      one_line := fun o => Kit.Json.print_one_line _
      parse_print := fun o => Kit.Json.parse_print _
      cut := fun o p hp hne => Kit.Json.parse_cut hp hne
      joined := fun p q ps h => Kit.Json.parse_joined fun r hr =>
        ⟨(h r hr).1, (h r hr).2.elim fun o ho => ⟨_, keyed_observation o.1 o.2, ho⟩⟩ }
  ascii := ascii_observation
  time t d := by
    simp [EconJson.compact, HistoryJson.compact, observation, Members.ofList, Value.index,
      Value.asNum, t.toNat_lt]
  difficulty t d := by
    simp [EconJson.compact, HistoryJson.compact, observation, Members.ofList, Value.index,
      Value.asNum]

/-- Targets are decimal numbers, and the doubles are the integers. -/
def tipEnv : EconEnv Value where
  json := .compact
  rnd x := ⌊x⌋
  parseF64 s :=
    (Kit.parseUInt (2 ^ 64) s).map (fun n => some (n : ℚ)) |>.mapError fun e => e.message
  debug := id

theorem tipEnv_sound : tipEnv.Sound 0 where
  json := compact_sound
  rnd_rnd x := by simp [tipEnv]
  asF64_rnd v d h := by
    have hnum : ∃ m : ℕ, (m : ℚ) = d := by
      cases hv : v.asNum with
      | none => simp [tipEnv, EconJson.compact, HistoryJson.compact, hv] at h
      | some m => exact ⟨m, by simpa [tipEnv, EconJson.compact, HistoryJson.compact, hv] using h⟩
    obtain ⟨m, rfl⟩ := hnum
    simp [tipEnv]
  reread_near d hpos hd := by
    have hfloor : ((⌊d⌋₊ : ℕ) : ℚ) = d := by
      rw [← Int.cast_natCast, Int.natCast_floor_eq_floor hpos.le]
      exact hd
    show |((⌊d⌋₊ : ℕ) : ℚ) - d| ≤ 0 * d
    simp [hfloor]

def tip (powType target : String) : Value :=
  .obj (.ofList [("result", .obj (.ofList
    [("powType", .str powType), ("target", .str target)]))])

/-- A ZK tip, one of the AI track, and a ZK tip whose line is torn. -/
def tips : List (Tick Value) :=
  [⟨.body (tip "zk-pow" "1"), 1000, some 200⟩, ⟨.body (tip "ai-pow" "7"), 1600, some 200⟩,
    ⟨.body (tip "zk-pow" "3"), 2200, some 5⟩]

/-- The difficulty of a target. -/
def difficultyAt (target : ℕ) : ℚ := ⌊maxTip5Atom tipEnv / (target + 1)⌋

theorem observed_tips : tips.map (observed tipEnv .rpc "tip") =
    [some (1000, difficultyAt 1), none, some (2200, difficultyAt 3)] := by
  decide +kernel

theorem refresh_history_tips :
    let st := (refresh tipEnv .rpc "tip" (some ⟨5, 2048⟩)).run ⟨some ⟨5, 2048⟩, none⟩ tips
    st.econ = some ⟨difficultyAt 3, 2048⟩ ∧
      economicsHistory tipEnv (fun _ => none) 3000 st.history =
        some (168, .ok [(1000, difficultyAt 1)]) := by
  intro st
  obtain ⟨hcache, -, hhistory⟩ :=
    @refresh_history _ _ _ tipEnv_sound .rpc "tip" (some ⟨5, 2048⟩) tips
  have hseen : tips.filterMap (observed tipEnv .rpc "tip") =
      [(1000, difficultyAt 1), (2200, difficultyAt 3)] := by
    have hmap := congrArg List.reduceOption observed_tips
    rwa [List.reduceOption, List.filterMap_map] at hmap
  constructor
  · rw [hcache, hseen]
    rfl
  · obtain ⟨-, -, points, hthin, hserved, -, -, hnear, -⟩ := hhistory (fun _ => none) 3000
    have hfound : (State.empty.writes tipEnv.json.format (writes tipEnv .rpc "tip" tips)).readable =
        [(1000, difficultyAt 1)] := by decide +kernel
    have hpoints : points = [(1000, tipEnv.json.reread (difficultyAt 1))] := by
      rw [readableFrom, hfound] at hthin
      exact (Option.some.inj hthin).symm
    obtain ⟨-, o, ho, htime, hdiff⟩ := hnear _ (hpoints ▸ List.mem_singleton_self _)
    rw [hseen] at ho
    rw [zero_mul] at hdiff
    rw [hserved, hpoints]
    rcases List.mem_cons.mp ho with rfl | ho
    · have heq : tipEnv.json.reread (difficultyAt 1) = difficultyAt 1 :=
        sub_eq_zero.mp (abs_nonpos_iff.mp hdiff)
      rw [heq]
      rfl
    · rw [List.mem_singleton.mp ho] at htime
      cases htime

end Registry
end Nockmark
