import Nockmark.Kit.FormUrl
import Nockmark.Registry.Challenge
import Nockmark.Registry.Store
import Nockmark.Tock.Client

/-!
# Registry.Handshake

`fetch_ai_challenge` (`tock/src/client.rs`) against `new_challenge` (`registry/src/http.rs`): the
two ends of a request for an AI challenge.

* `pairs_aiChallengeUrl`: what the server's router reads of the client's URL.
* `fetch_reply`: what the client makes of the reply to a request for a statement.
* `handshake`: a client gets the statement and the tier that it asks for, and the workload that the
  registry will verify it at; it does not go on with any other.
-/

namespace Nockmark
namespace Registry

open Kit.FormUrl (Faithful Plain lookup pairs render)
open Kit.Json (Value Members)
open Tock (AiRegistryChallenge AiStatement Bytes32 ClientJson HttpResponse aiChallengeUrl
  checkChallenge fetchAiChallenge hex32 jsonU64 parseHex32 runIdOf trimEndSlashes)

/-- The query of a URL. -/
def queryText (url : String) : List Char :=
  ((url.toList.dropWhile (· ≠ '?')).drop 1).takeWhile (· ≠ '#')

/-- `Query<HashMap<String, String>>` of a request's URL. -/
def queryOf (lossy : List UInt8 → String) (url : String) : Query :=
  lookup (pairs lossy (queryText url))

/-- The registry's name of a client's statement. -/
def ofClient : AiStatement → Statement
  | .dense => .dense
  | .canonicalMoe => .canonicalMoe

/-- A reply as the client receives it. -/
def responseOf (J : SerdeJson) (statusText : ℕ → String) (r : Reply) : HttpResponse :=
  ⟨r.status, statusText r.status, .ok (J.print r.body)⟩

/-- The client's library reads what the registry's prints. -/
def Reads (json : ClientJson) (J : SerdeJson) : Prop :=
  ∀ v, v.Canonical → json.parse (J.print v) = .ok v

/-- A server's address, without a query or a fragment. -/
def BaseUrl (base : String) : Prop := '?' ∉ base.toList ∧ '#' ∉ base.toList

/-! ### The request -/

/-- The parameters that a client asks with. -/
def asked (st : AiStatement) (attempts : Option UInt64) : List (String × String) :=
  [("track", "ai")] ++ (if st ≠ .dense then [("statement", st.asStr)] else []) ++
    (attempts.map fun n => ("attempts", Kit.dec n.toNat)).toList

theorem baseUrl_trim {base : String} (h : BaseUrl base) : BaseUrl (trimEndSlashes base) := by
  have hsub : (trimEndSlashes base).toList ⊆ base.toList := by
    intro c hc
    rw [trimEndSlashes, String.toList_ofList, List.mem_reverse] at hc
    exact List.mem_reverse.mp (List.dropWhile_subset _ hc)
  exact ⟨fun hc => h.1 (hsub hc), fun hc => h.2 (hsub hc)⟩

/-- Everything behind the first `?`, if there is no fragment. -/
theorem queryText_eq {url : String} {path query : List Char} (h : url.toList = path ++ '?' :: query)
    (hpath : '?' ∉ path) (hquery : '#' ∉ query) : queryText url = query := by
  have hne : ∀ c ∈ path, (fun c : Char => decide (c ≠ '?')) c = true := by
    intro c hc
    refine decide_eq_true ?_
    rintro rfl
    exact hpath hc
  rw [queryText, h, List.dropWhile_append_of_pos hne, List.dropWhile_cons_of_neg (by simp),
    List.drop_one, List.tail_cons]
  apply List.takeWhile_eq_self_iff.mpr
  intro c hc
  refine decide_eq_true ?_
  rintro rfl
  exact hquery hc

theorem aiChallengeUrl_toList (base : String) (st : AiStatement) (attempts : Option UInt64) :
    (aiChallengeUrl base st attempts).toList =
      ((trimEndSlashes base).toList ++ "/challenge".toList) ++
        '?' :: ['&'].intercalate ((asked st attempts).map render) := by
  cases st <;> cases attempts <;>
    simp [aiChallengeUrl, asked, render, List.intercalate]

/-- No character of a numeral separates or escapes. -/
theorem dec_chars {n : ℕ} {c : Char} (hc : c ∈ (Kit.dec n).toList) :
    (c ≠ '&' ∧ c ≠ '=' ∧ c ≠ '+' ∧ c ≠ '%') ∧ c ≠ '#' := by
  have hd := Kit.dec_digits n c hc
  refine ⟨⟨?_, ?_, ?_, ?_⟩, ?_⟩ <;>
    · rintro rfl
      revert hd
      decide

theorem plain_asked (st : AiStatement) (attempts : Option UInt64) :
    ∀ kv ∈ asked st attempts, Plain kv.1 ∧ Plain kv.2 := by
  have htrack : Plain "track" ∧ Plain "ai" := by simp [Plain]
  have hstatement : Plain "statement" ∧ ∀ st : AiStatement, Plain st.asStr := by
    refine ⟨by simp [Plain], ?_⟩
    intro st
    cases st <;> simp [Plain, AiStatement.asStr]
  have hattempts : Plain "attempts" ∧ ∀ n, Plain (Kit.dec n) :=
    ⟨by simp [Plain], fun n c hc => (dec_chars hc).1⟩
  intro kv hkv
  simp only [asked, List.mem_append, List.mem_singleton, Option.mem_toList,
    Option.map_eq_some_iff] at hkv
  rcases hkv with (rfl | hst) | ⟨n, -, rfl⟩
  · exact htrack
  · split at hst
    · rw [List.mem_singleton.mp hst]
      exact ⟨hstatement.1, hstatement.2 st⟩
    · cases hst
  · exact ⟨hattempts.1, hattempts.2 n.toNat⟩

/-- There is no fragment. -/
theorem asked_no_fragment (st : AiStatement) (attempts : Option UInt64) :
    '#' ∉ ['&'].intercalate ((asked st attempts).map render) := by
  have hdec : ∀ n : ℕ, '#' ∉ (Kit.dec n).toList := fun n hc => (dec_chars hc).2 rfl
  cases st <;> cases attempts <;>
    simp [asked, render, List.intercalate, AiStatement.asStr, hdec]

theorem pairs_aiChallengeUrl {lossy : List UInt8 → String} (hlossy : Faithful lossy)
    {base : String} (hbase : BaseUrl base) (st : AiStatement) (attempts : Option UInt64) :
    pairs lossy (queryText (aiChallengeUrl base st attempts)) = asked st attempts := by
  have hpath : '?' ∉ (trimEndSlashes base).toList ++ "/challenge".toList :=
    List.not_mem_append (baseUrl_trim hbase).1 (by simp)
  rw [queryText_eq (aiChallengeUrl_toList base st attempts) hpath (asked_no_fragment st attempts),
    Kit.FormUrl.pairs_render hlossy (plain_asked st attempts)]

/-- The server reads the parameters as the client meant them. -/
theorem query_aiChallengeUrl {lossy : List UInt8 → String} (hlossy : Faithful lossy)
    {base : String} (hbase : BaseUrl base) (st : AiStatement) (attempts : Option UInt64)
    (debug : String → String) :
    let q := queryOf lossy (aiChallengeUrl base st attempts)
    isAiTrack q = true ∧ statementFromQuery debug q = .ok (ofClient st) ∧
      attemptsFromQuery q = .ok attempts := by
  intro q
  have hq : q = lookup (asked st attempts) := by
    rw [← pairs_aiChallengeUrl hlossy hbase st attempts]
    rfl
  have hdec : ∀ n : UInt64, parseU64 (Kit.dec n.toNat) = .ok n := parseU64_u64String
  rw [hq]
  cases st <;> cases attempts <;>
    simp [isAiTrack, statementFromQuery, attemptsFromQuery, asked, lookup, hdec, ofClient,
      AiStatement.asStr, Statement.parse]

/-! ### The reply -/

section Reply

variable {env : AiEnv} {cfg : Config} {J : SerdeJson} {json : ClientJson}

/-- The reply as the client's fields. -/
def challengeOf (env : AiEnv) (cfg : Config) (s : Statement) (nonce : UInt64)
    (tier : Option Tier) : AiRegistryChallenge where
  nonce := u64String nonce
  challenge := hex32 (challenge32 env.blake3 nonce)
  target := hex32 ((tier.map Tier.target).getD (cfg.target s))
  k := cfg.aiK
  nonceRule := s.nonceRule
  statement := some s.asStr
  attempts := tier.map fun t => UInt64.ofNat t.attempts

theorem jsonU64_num {n : ℕ} (h : n < 2 ^ 64) : jsonU64 (.num n) = some (UInt64.ofNat n) := by
  rw [jsonU64, Value.asNum, Option.bind_some, if_pos h]

theorem fromValue_aiChallengeReply {s : Statement} {nonce : UInt64} {tier : Option Tier}
    (ht : ∀ t, tier = some t → t.attempts < 2 ^ 64) :
    AiRegistryChallenge.fromValue (aiChallengeReply env cfg s nonce tier).body =
      some (challengeOf env cfg s nonce tier) := by
  have hk : jsonU64 (u64 cfg.aiK) = some cfg.aiK := by
    rw [u64, jsonU64_num cfg.aiK.toNat_lt, UInt64.ofNat_toNat]
  cases tier with
  | none =>
    simp [aiChallengeReply, Reply.ok, AiRegistryChallenge.fromValue, Members.ofList, Value.asStr,
      hk, Tock.optional, challengeOf, Members.get]
  | some t =>
    have hnum := jsonU64_num (ht t rfl)
    simp [aiChallengeReply, Reply.ok, AiRegistryChallenge.fromValue, Members.ofList, Value.asStr,
      hk, Tock.optional, challengeOf, hnum]

theorem fromValue_aiChallengeReply_none {s : Statement} {nonce : UInt64} {tier : Option Tier}
    (ht : ¬ ∀ t, tier = some t → t.attempts < 2 ^ 64) :
    AiRegistryChallenge.fromValue (aiChallengeReply env cfg s nonce tier).body = none := by
  cases tier with
  | none => exact absurd nofun ht
  | some t =>
    have hnum : jsonU64 (.num t.attempts) = none := by
      rw [jsonU64, Value.asNum, Option.bind_some, if_neg]
      intro hlt
      exact ht fun t' heq => Option.some.inj heq ▸ hlt
    simp [aiChallengeReply, Reply.ok, AiRegistryChallenge.fromValue, Members.ofList,
      Tock.optional, hnum]

theorem canonical_aiChallengeReply (s : Statement) (nonce : UInt64) (tier : Option Tier) :
    (aiChallengeReply env cfg s nonce tier).body.Canonical := by
  have hparams : s.params.Canonical := by
    cases s <;>
    · apply Kit.Json.Value.canonical_ofList
      simp [Value.Canonical]
  have hbody : ∀ target, (Value.obj (.ofList [("nonce", .str (u64String nonce)),
      ("challenge", .str (hex32 (challenge32 env.blake3 nonce))), ("target", .str target),
      ("k", u64 cfg.aiK), ("statement", .str s.asStr), ("params", s.params),
      ("nonce_rule", .str s.nonceRule)])).Canonical := by
    intro target
    apply Kit.Json.Value.canonical_ofList
    simp [Value.Canonical, u64, hparams]
  cases tier with
  | none => exact hbody _
  | some t => exact Kit.Json.Value.canonical_insert (by simp [Value.Canonical]) (hbody _)

/-- The reply is read back, and what it says is checked against what was asked for. -/
theorem fetch_reply (hread : Reads json J) (statusText : ℕ → String) (base : String)
    (st : AiStatement) (attempts : Option UInt64) (s : Statement) (nonce : UInt64)
    (tier : Option Tier) {r : Option AiRegistryChallenge}
    (hr : AiRegistryChallenge.fromValue (aiChallengeReply env cfg s nonce tier).body = r) :
    fetchAiChallenge json
        (fun _ => .ok (responseOf J statusText (aiChallengeReply env cfg s nonce tier)))
        base st attempts =
      match r with
      | some ch => checkChallenge json st ch
      | none =>
        let url := aiChallengeUrl base st attempts
        let e := json.shape (aiChallengeReply env cfg s nonce tier).body
        .error s!"bad AI challenge JSON from {url}: {e}" := by
  have hok : (responseOf J statusText (aiChallengeReply env cfg s nonce tier)).isSuccess =
      true := by
    cases tier <;> rfl
  have hparse : (responseOf J statusText (aiChallengeReply env cfg s nonce tier)).text.bind
      json.parse = .ok (aiChallengeReply env cfg s nonce tier).body :=
    hread _ (canonical_aiChallengeReply s nonce tier)
  simp only [fetchAiChallenge, hok, hparse, hr]
  cases r <;> rfl

theorem checkChallenge_same (st : AiStatement) (nonce : UInt64) (tier : Option Tier) :
    checkChallenge json st (challengeOf env cfg (ofClient st) nonce tier) =
      .ok (challengeOf env cfg (ofClient st) nonce tier) := by
  cases st <;>
    simp [checkChallenge, challengeOf, ofClient, Statement.nonceRule, Statement.asStr,
      AiStatement.nonceRule, AiStatement.asStr]

theorem checkChallenge_other {st : AiStatement} {s : Statement} (h : s ≠ ofClient st)
    (nonce : UInt64) (tier : Option Tier) :
    ∃ e, checkChallenge json st (challengeOf env cfg s nonce tier) = .error e := by
  cases st <;> cases s <;>
    first
      | exact absurd rfl h
      | exact ⟨_, by simp [checkChallenge, challengeOf, Statement.nonceRule,
          AiStatement.nonceRule]; rfl⟩

/-- The client goes on with the statement that it asked for, and with no other. -/
theorem fetch_reply_ok (hread : Reads json J) {statusText : ℕ → String} {base : String}
    {st : AiStatement} {attempts : Option UInt64} {s : Statement} {nonce : UInt64}
    {tier : Option Tier} {ch : AiRegistryChallenge}
    (h : fetchAiChallenge json
        (fun _ => .ok (responseOf J statusText (aiChallengeReply env cfg s nonce tier)))
        base st attempts = .ok ch) :
    s = ofClient st ∧ ch = challengeOf env cfg s nonce tier := by
  by_cases hlt : ∀ t, tier = some t → t.attempts < 2 ^ 64
  · rw [fetch_reply hread _ _ _ _ _ _ _ (fromValue_aiChallengeReply hlt)] at h
    by_cases hs : s = ofClient st
    · subst hs
      exact ⟨rfl, (Except.ok.inj ((checkChallenge_same st nonce tier).symm.trans h)).symm⟩
    · obtain ⟨e, he⟩ := @checkChallenge_other env cfg json _ _ hs nonce tier
      cases he.symm.trans h
  · rw [fetch_reply hread _ _ _ _ _ _ _ (fromValue_aiChallengeReply_none hlt)] at h
    cases h

end Reply

theorem targetForAttempts_ofClient (rnd : ℚ → ℚ) (moeThreshold : Bytes32 → Except String Bytes32)
    (st : AiStatement) (attempts : ℕ) :
    (ofClient st).targetForAttempts rnd moeThreshold attempts =
      st.targetForAttempts rnd moeThreshold attempts := by
  cases st <;> rfl

theorem IsTierOf.attempts_lt {env : AiEnv} {s : Statement} {requested : UInt64} {tier : Tier}
    (h : IsTierOf env s requested tier) : tier.attempts < 2 ^ 64 := by
  obtain ⟨a, -, ha, hpow⟩ := Tock.grantAttempts_eq_pow requested.toNat
  rw [h.1, hpow]
  exact Nat.pow_lt_pow_right (by omega) (by omega)

/-- The tier of a request for a statement, with or without a number of attempts. -/
theorem validateChallenge_asked {env : AiEnv} (hlaw : Tock.ThresholdLaw env.moeThreshold)
    {q : Query} (hq : isAiTrack q = true) {s : Statement}
    (hs : statementFromQuery env.debug q = .ok s)
    {attempts : Option UInt64} (ha : attemptsFromQuery q = .ok attempts) :
    ∃ tier, validateChallenge env q = .ok (s, tier) ∧
      tier.map Tier.attempts = attempts.map (fun n => Tock.grantAttempts n.toNat) ∧
      ∀ t, tier = some t → t.attempts < 2 ^ 64 ∧
        s.targetForAttempts Kit.Round.binary64 env.moeThreshold t.attempts = some t.target := by
  cases attempts with
  | none =>
    refine ⟨none, ?_, rfl, nofun⟩
    rw [validateChallenge, if_pos hq, hs]
    simp only [ha]
  | some n =>
    obtain ⟨tier, hv, ht⟩ := validateChallenge_tier hlaw hq hs ha
    refine ⟨some tier, hv, congrArg some ht.1, ?_⟩
    intro t heq
    cases heq
    exact ⟨ht.attempts_lt, ht.2⟩

/-- For every address, statement and requested tier: the registry reads the statement that the
client asked for and grants the tier nearest to its request, at the target that the client derives
for that tier itself. From the reply to any nonce the client takes the workload that the registry
verifies and scores, with the granted tier; of a challenge for the other statement, or an error, it
takes none. -/
theorem handshake {lossy : List UInt8 → String} (hlossy : Faithful lossy) {base : String}
    (hbase : BaseUrl base) {env : AiEnv} (hlaw : Tock.ThresholdLaw env.moeThreshold)
    {J : SerdeJson} {json : ClientJson} (hread : Reads json J) (statusText : ℕ → String)
    (st : AiStatement) (attempts : Option UInt64) :
    let q := queryOf lossy (aiChallengeUrl base st attempts)
    let fetch := fun r =>
      fetchAiChallenge json (fun _ => .ok (responseOf J statusText r)) base st attempts
    ∃ tier, isAiTrack q = true ∧ validateChallenge env q = .ok (ofClient st, tier) ∧
      tier.map Tier.attempts = attempts.map (fun n => Tock.grantAttempts n.toNat) ∧
      (∀ t, tier = some t →
        st.targetForAttempts Kit.Round.binary64 env.moeThreshold t.attempts = some t.target) ∧
      (∀ cfg nonce, ∃ ch, fetch (aiChallengeReply env cfg (ofClient st) nonce tier) = .ok ch ∧
        parseU64 ch.nonce = .ok nonce ∧ ch.k = cfg.aiK ∧
        parseHex32 ch.challenge = some (.ok (challenge32 env.blake3 nonce)) ∧
        parseHex32 ch.target =
          some (.ok ((tier.map Tier.target).getD (cfg.target (ofClient st)))) ∧
        ch.attempts.map UInt64.toNat = tier.map Tier.attempts) ∧
      (∀ cfg s nonce tier', s ≠ ofClient st → (∀ t, tier' = some t → t.attempts < 2 ^ 64) →
        ∃ e, fetch (aiChallengeReply env cfg s nonce tier') = .error e) ∧
      ∀ status msg, 400 ≤ status → ∃ e, fetch (.error status msg) = .error e := by
  intro q fetch
  obtain ⟨hq, hs, ha⟩ := query_aiChallengeUrl hlossy hbase st attempts env.debug
  obtain ⟨tier, hv, hgrant, htier⟩ := validateChallenge_asked hlaw hq hs ha
  have hlt : ∀ t, tier = some t → t.attempts < 2 ^ 64 := fun t ht => (htier t ht).1
  refine ⟨tier, hq, hv, hgrant, ?_, ?_, ?_, ?_⟩
  · intro t ht
    rw [← targetForAttempts_ofClient]
    exact (htier t ht).2
  · intro cfg nonce
    refine ⟨challengeOf env cfg (ofClient st) nonce tier, ?_, parseU64_u64String nonce, rfl,
      Tock.parseHex32_hex32 _, Tock.parseHex32_hex32 _, ?_⟩
    · exact (fetch_reply hread statusText base st attempts _ nonce tier
        (fromValue_aiChallengeReply hlt)).trans (checkChallenge_same st nonce tier)
    · cases tier with
      | none => rfl
      | some t => exact congrArg some (UInt64.toNat_ofNat_of_lt' (hlt t rfl))
  · intro cfg s nonce tier' hne hlt'
    obtain ⟨e, he⟩ := @checkChallenge_other env cfg json _ _ hne nonce tier'
    exact ⟨e, (fetch_reply hread statusText base st attempts s nonce tier'
      (fromValue_aiChallengeReply hlt')).trans he⟩
  · intro status msg hstatus
    have hfail : (responseOf J statusText (.error status msg)).isSuccess = false := by
      rw [HttpResponse.isSuccess, Bool.and_eq_false_iff, decide_eq_false_iff_not,
        decide_eq_false_iff_not]
      exact .inr (by show ¬ status < 300; omega)
    exact ⟨_, by simp only [fetch, fetchAiChallenge, hfail]; rfl⟩

/-! ### The reply to a submission -/

section Told

variable {J : SerdeJson} {json : ClientJson}

theorem runIdOf_ok (hread : Reads json J) (url : String) (statusText : ℕ → String) {id : ℕ}
    (hid : id < 2 ^ 64) :
    runIdOf json url (.ok (responseOf J statusText (.ok (.obj (.ofList [("run_id", .num id)]))))) =
      .ok (UInt64.ofNat id) := by
  have hcanonical : (Value.obj (.ofList [("run_id", .num id)])).Canonical := by
    apply Kit.Json.Value.canonical_ofList
    simp [Value.Canonical]
  have hindex : jsonU64 ((Value.obj (.ofList [("run_id", .num id)])).index "run_id") =
      some (UInt64.ofNat id) := jsonU64_num hid
  simp only [runIdOf, responseOf, Reply.ok, HttpResponse.isSuccess, hread _ hcanonical, hindex]
  rfl

theorem runIdOf_bad (hread : Reads json J) (url : String) (statusText : ℕ → String)
    (msg : String) : runIdOf json url (.ok (responseOf J statusText (bad msg))) = .error msg := by
  have hcanonical : (bad msg).body.Canonical := by
    apply Kit.Json.Value.canonical_ofList
    simp [Value.Canonical]
  have hfail : (responseOf J statusText (bad msg)).isSuccess = false := rfl
  have hindex : ((bad msg).body.index "error").asStr = some msg := rfl
  have htext : (responseOf J statusText (bad msg)).text = .ok (J.print (bad msg).body) := rfl
  simp only [runIdOf, htext, hfail, Bool.not_false, if_true, hread _ hcanonical, Except.toOption,
    Option.bind_some, hindex]

end Told

/-- Text as it is, and nothing of what is not text. -/
def lossyUtf8 (bs : List UInt8) : String := String.ofList ((Kit.Utf8.decode? bs).getD [])

theorem lossyUtf8_faithful : Faithful lossyUtf8 := by
  intro s
  rw [lossyUtf8, Kit.Utf8.decode?_encode, Option.getD_some, String.ofList_toList]

/-- A client that reads what `serde_json` prints. -/
def compactJson : ClientJson where
  parse cs := (Kit.Json.parse cs).elim (.error "expected value") .ok
  shape _ := "missing field"
  debug s := s

theorem compactJson_reads : Reads compactJson .compact := by
  intro v _
  simp [compactJson, SerdeJson.compact, Kit.Json.parse_print]

theorem handshake_compact : ∃ tier ch,
    fetchAiChallenge compactJson
      (fun _ => .ok (responseOf .compact (fun _ => "200 OK")
        (aiChallengeReply strict (zkConfig 8) .canonicalMoe 7 (some tier))))
      "https://registry.example/" .canonicalMoe (some 5000) = .ok ch ∧
      parseU64 ch.nonce = .ok 7 ∧ ch.k = 1 ∧ ch.attempts.map UInt64.toNat = some 4096 := by
  have hbase : BaseUrl "https://registry.example/" := by
    constructor <;> simp
  obtain ⟨tier, -, -, hgrant, -, hfetch, -⟩ := @handshake _ lossyUtf8_faithful _ hbase strict
    Tock.scaledThreshold_law _ _ compactJson_reads (fun _ => "200 OK") .canonicalMoe
    (some 5000)
  obtain ⟨ch, hch, hnonce, hk, -, -, hattempts⟩ := hfetch (zkConfig 8) 7
  cases tier with
  | none => cases hgrant
  | some tier =>
    refine ⟨tier, ch, hch, hnonce, hk, ?_⟩
    rw [hattempts, hgrant]
    decide

end Registry
end Nockmark
