import Nockmark.Kernel.Driver
import Nockmark.Tock.Bench

/-!
# Tock.Miner

One proving attempt (`run_prove` in `tock/src/miner.rs`): the noun that a miner kernel is poked
with, and the proof that is found in its effects.

The booted kernels and `jam` are parameters. `dig_hex`, which is only printed, is left out.

* `mined_eq_ok`: the proof of the first `%mine-result`, whatever effects come before it.
* `bench_mined`: what `tock bench --submit` sends are the kernels' proofs, one for each index.
-/

namespace Nockmark
namespace Tock

open Kernel (D Noun cord directMax)

inductive ProvePanic where
  /-- a tuple of fewer than two nouns -/
  | tuple
  /-- `D` of a number that is no direct atom -/
  | direct
  | expect (msg : String)
  deriving DecidableEq

/-! ### The poke -/

/-- Nouns, nested to the right. -/
def nest : Noun → List Noun → Noun
  | a, [] => a
  | a, b :: rest => .cell a (nest b rest)

/-- `T` -/
def tuple : List Noun → Option Noun
  | a :: b :: rest => some (nest a (b :: rest))
  | _ => none

def beltsToDigest (belts : List UInt64) : Option Noun :=
  tuple (belts.map fun b => .atom b.toNat)

/-- `MAX_TARGET_LIMBS`, lowest first -/
def maxTargetLimbs : List ℕ :=
  [0, 4294967291, 14, 4294967266, 44, 4294967245, 44, 4294967266, 14, 4294967291]

/-- `[%bn limbs]`, the limbs as a list -/
def maxTarget : Noun :=
  .cell (.atom (cord "bn"))
    (maxTargetLimbs.foldr (fun limb list => .cell (.atom limb) list) (.atom 0))

/-- `PROOF_VERSION` -/
def proofVersion : ℕ := 3

def candidate (header nonce : List UInt64) (powLen : UInt64) : Except ProvePanic Noun :=
  match beltsToDigest header, beltsToDigest nonce with
  | some header, some nonce =>
    match D powLen.toNat with
    | none => .error .direct
    | some len =>
      match tuple [.atom proofVersion, header, nonce, maxTarget, len] with
      | none => .error .tuple
      | some poke => .ok poke
  | _, _ => .error .tuple

/-! ### The effects -/

def expectCell (msg : String) : Noun → Except ProvePanic (Noun × Noun)
  | .cell h t => .ok (h, t)
  | .atom _ => .error (.expect msg)

def expectTag (tag msg : String) (n : Noun) : Except ProvePanic Unit :=
  if n = .atom (cord tag) then .ok () else .error (.expect msg)

/-- The flag is read as a u64, and has to be `%&`. -/
def expectSuccess : Noun → Except ProvePanic Unit
  | .atom flag =>
    if 2 ^ 64 ≤ flag then .error (.expect "each flag should be small")
    else if flag ≠ 0 then
      .error (.expect "mine-result reported failure (%|) — target should always pass")
    else .ok ()
  | .cell _ _ => .error (.expect "each flag should be an atom")

/-- The proof in what follows a `%mine-result` tag. -/
def proofOf (payload : Noun) : Except ProvePanic Noun := do
  let (flag, each) ← expectCell "mine-result payload should be a cell" payload
  expectSuccess flag
  let (_, success) ← expectCell "expected [hash success]" each
  let (command, pow) ← expectCell "expected [%command ...]" success
  expectTag "command" "expected %command" command
  let (tag, variant) ← expectCell "expected [%pow ...]" pow
  expectTag "pow" "expected %pow" tag
  let (tag, result) ← expectCell "expected [%dumb-zkpow ...]" variant
  expectTag "dumb-zkpow" "expected %dumb-zkpow pow-variant tag" tag
  let (proof, rest) ← expectCell "expected [proof dig ...]" result
  let _ ← expectCell "expected [dig header nonce]" rest
  return proof

/-- The loop over the effects; whatever is not a `%mine-result` is skipped. -/
def mined : Noun → Except ProvePanic Noun
  | .atom _ => .error (.expect "no mine-result effect found in prove output")
  | .cell (.atom _) effects => mined effects
  | .cell (.cell tag payload) effects =>
    if tag = .atom (cord "mine-result") then proofOf payload else mined effects

/-- The kernels of a run: what thread `tid`'s kernel answers at an index, and in how many
milliseconds. -/
structure Miner where
  poke : ℕ → UInt64 → Noun → Option (Noun × UInt64)
  jam : Noun → List UInt8

def Miner.runProve (m : Miner) (tid : ℕ) (i : UInt64) (header nonce : List UInt64)
    (powLen : UInt64) : Except ProvePanic ProveOutput :=
  match candidate header nonce powLen with
  | .error e => .error e
  | .ok poke =>
    match m.poke tid i poke with
    | none => .error (.expect "prove poke failed")
    | some (effects, durationMs) => (mined effects).map fun proof => ⟨durationMs, m.jam proof⟩

/-! ### The poke that is built -/

theorem beltsToDigest_isSome {belts : List UInt64} (h : belts.length = 5) :
    ∃ digest, beltsToDigest belts = some digest := by
  match belts, h with
  | [a, b, c, d, e], _ => exact ⟨_, rfl⟩

theorem candidate_isOk {header nonce : List UInt64} {powLen : UInt64} (hheader : header.length = 5)
    (hnonce : nonce.length = 5) (hlen : powLen.toNat ≤ directMax) :
    ∃ poke, candidate header nonce powLen = .ok poke := by
  obtain ⟨hd, hhd⟩ := beltsToDigest_isSome hheader
  obtain ⟨nd, hnd⟩ := beltsToDigest_isSome hnonce
  exact ⟨_, by simp only [candidate, hhd, hnd, D, if_pos hlen]; rfl⟩

/-! ### The proof that is found -/

theorem ok_of_bind {α β : Type} {x : Except ProvePanic α} {f : α → Except ProvePanic β} {b : β}
    (h : x >>= f = .ok b) : ∃ a, x = .ok a ∧ f a = .ok b :=
  match x, h with
  | .ok a, h => ⟨a, rfl, h⟩

theorem expectCell_eq_ok {msg : String} {n : Noun} {p : Noun × Noun}
    (h : expectCell msg n = .ok p) : n = .cell p.1 p.2 := by
  cases n with
  | atom a => cases h
  | cell h t =>
    cases h
    rfl

theorem expectTag_eq_ok {tag msg : String} {n : Noun} {u : Unit}
    (h : expectTag tag msg n = .ok u) : n = .atom (cord tag) := by
  unfold expectTag at h
  split at h
  · assumption
  · cases h

theorem expectSuccess_eq_ok {n : Noun} {u : Unit} (h : expectSuccess n = .ok u) :
    n = .atom 0 := by
  cases n with
  | cell => cases h
  | atom flag =>
    simp only [expectSuccess] at h
    by_cases hsmall : 2 ^ 64 ≤ flag
    · rw [if_pos hsmall] at h
      cases h
    by_cases hflag : flag = 0
    · rw [hflag]
    · rw [if_neg hsmall, if_pos hflag] at h
      cases h

/-- `[%& hash %command %pow %dumb-zkpow proof dig more]` -/
def Success (payload proof : Noun) : Prop :=
  ∃ hash dig more, payload = .cell (.atom 0) (.cell hash (.cell (.atom (cord "command"))
    (.cell (.atom (cord "pow")) (.cell (.atom (cord "dumb-zkpow"))
      (.cell proof (.cell dig more))))))

theorem proofOf_eq_ok {payload proof : Noun} :
    proofOf payload = .ok proof ↔ Success payload proof := by
  constructor
  · intro h
    obtain ⟨⟨flag, each⟩, hpayload, h⟩ := ok_of_bind h
    obtain ⟨_, hflag, h⟩ := ok_of_bind h
    obtain ⟨⟨hash, success⟩, heach, h⟩ := ok_of_bind h
    obtain ⟨⟨command, pow⟩, hsuccess, h⟩ := ok_of_bind h
    obtain ⟨_, hcommand, h⟩ := ok_of_bind h
    obtain ⟨⟨tag, variant⟩, hpow, h⟩ := ok_of_bind h
    obtain ⟨_, htag, h⟩ := ok_of_bind h
    obtain ⟨⟨tag', result⟩, hvariant, h⟩ := ok_of_bind h
    obtain ⟨_, htag', h⟩ := ok_of_bind h
    obtain ⟨⟨proof', rest⟩, hresult, h⟩ := ok_of_bind h
    obtain ⟨⟨dig, more⟩, hrest, h⟩ := ok_of_bind h
    cases h
    refine ⟨hash, dig, more, ?_⟩
    rw [expectCell_eq_ok hpayload, expectCell_eq_ok heach, expectCell_eq_ok hsuccess,
      expectCell_eq_ok hpow, expectCell_eq_ok hvariant, expectCell_eq_ok hresult,
      expectCell_eq_ok hrest, expectSuccess_eq_ok hflag, expectTag_eq_ok hcommand,
      expectTag_eq_ok htag, expectTag_eq_ok htag']
  · rintro ⟨hash, dig, more, rfl⟩
    simp [proofOf, expectCell, expectSuccess, expectTag, bind, Except.bind, pure, Except.pure]

/-- `[%mine-result payload]` -/
def mineResult (payload : Noun) : Noun := .cell (.atom (cord "mine-result")) payload

/-- The first `%mine-result` among the effects is a success with this proof. -/
def Mined (effects proof : Noun) : Prop :=
  ∃ (before : List Noun) (payload rest : Noun),
    effects = before.foldr .cell (.cell (mineResult payload) rest) ∧
    (∀ e ∈ before, ∀ payload, e ≠ mineResult payload) ∧ Success payload proof

theorem mined_foldr {before : List Noun} (h : ∀ e ∈ before, ∀ payload, e ≠ mineResult payload)
    (effects : Noun) : mined (before.foldr .cell effects) = mined effects := by
  induction before with
  | nil => rfl
  | cons e before ih =>
    obtain ⟨he, hbefore⟩ := List.forall_mem_cons.mp h
    rw [List.foldr_cons, ← ih hbefore]
    cases e with
    | atom a => rfl
    | cell tag payload =>
      rw [mined, if_neg]
      rintro rfl
      exact he payload rfl

theorem mined_eq_ok {effects proof : Noun} : mined effects = .ok proof ↔ Mined effects proof := by
  constructor
  · intro h
    fun_induction mined effects with
    | case1 a => cases h
    | case2 a effects ih =>
      obtain ⟨before, payload, rest, rfl, hbefore, hs⟩ := ih h
      refine ⟨.atom a :: before, payload, rest, rfl, ?_, hs⟩
      exact List.forall_mem_cons.mpr ⟨nofun, hbefore⟩
    | case3 payload effects =>
      exact ⟨[], payload, effects, rfl, nofun, proofOf_eq_ok.mp h⟩
    | case4 tag payload effects htag ih =>
      obtain ⟨before, payload', rest, rfl, hbefore, hs⟩ := ih h
      refine ⟨.cell tag payload :: before, payload', rest, rfl, ?_, hs⟩
      refine List.forall_mem_cons.mpr ⟨?_, hbefore⟩
      intro p heq
      cases heq
      exact htag rfl
  · rintro ⟨before, payload, rest, rfl, hbefore, hs⟩
    rw [mined_foldr hbefore, mineResult, mined, if_pos rfl]
    exact proofOf_eq_ok.mpr hs

/-! ### A run -/

theorem runProve_eq_ok {m : Miner} {tid : ℕ} {i : UInt64} {header nonce : List UInt64}
    {powLen : UInt64} {out : ProveOutput} :
    m.runProve tid i header nonce powLen = .ok out ↔
      ∃ poke effects proof, candidate header nonce powLen = .ok poke ∧
        m.poke tid i poke = some (effects, out.durationMs) ∧ Mined effects proof ∧
        out.proofJam = m.jam proof := by
  constructor
  · intro h
    unfold Miner.runProve at h
    split at h
    · cases h
    rename_i poke hpoke
    split at h
    · cases h
    rename_i effects ms heffects
    cases hm : mined effects with
    | error e =>
      rw [hm] at h
      cases h
    | ok proof =>
      rw [hm] at h
      cases h
      exact ⟨poke, effects, proof, hpoke, heffects, mined_eq_ok.mp hm, rfl⟩
  · rintro ⟨poke, effects, proof, hpoke, heffects, hm, hjam⟩
    simp only [Miner.runProve, hpoke, heffects, mined_eq_ok.mpr hm, Except.map, ← hjam]

/-- The client that proves with these kernels. -/
def Miner.client (m : Miner) (base64 : List UInt8 → String) (capacity : ℕ)
    (capacity_le : capacity ≤ 2 ^ 63 - 1) : Client where
  runProve tid i header nonce powLen := (m.runProve tid i header nonce powLen).toOption
  base64
  capacity
  capacity_le

theorem runProve_client {m : Miner} {base64 : List UInt8 → String} {capacity : ℕ}
    {hcapacity : capacity ≤ 2 ^ 63 - 1} {tid : ℕ} {i : UInt64} {header nonce : List UInt64}
    {powLen : UInt64} {out : ProveOutput} :
    (m.client base64 capacity hcapacity).runProve tid i header nonce powLen = some out ↔
      m.runProve tid i header nonce powLen = .ok out := by
  show (m.runProve tid i header nonce powLen).toOption = some out ↔ _
  cases m.runProve tid i header nonce powLen with
  | error e => simp [Except.toOption]
  | ok out' => simp [Except.toOption]

/-- Whatever its kernel answers with, thread `tid` is given `proof` for the work at index `i`. -/
def Miner.Proves (m : Miner) (seed : String) (powLen : UInt64) (tid i : ℕ) (proof : Noun) : Prop :=
  ∃ poke effects ms, candidate (headerBelts seed) (nonceBelts seed (UInt64.ofNat i)) powLen =
    .ok poke ∧ m.poke tid (UInt64.ofNat i) poke = some (effects, ms) ∧ Mined effects proof

/-- For every challenge, number of threads and order in which the tasks end: the proofs that are
sent are one for each index below `k`, in order, and each is the proof of the first `%mine-result`
that a kernel answered the poke of this index with. And they are sent, on a host whose vectors hold
that many threads and proofs, if a direct atom holds the length of the puzzle and every kernel's
first `%mine-result` is a success. -/
theorem bench_mined (m : Miner) (base64 : List UInt8 → String) {capacity : ℕ}
    (hcapacity : capacity ≤ 2 ^ 63 - 1) (ch : Challenge) {threads : UInt64} {order : List ℕ}
    (horder : order.Perm (List.range threads.toNat)) (hardware proverVersion : String)
    (elapsedMs : UInt64) :
    let sent := benchSubmit (m.client base64 capacity hcapacity) threads order ch hardware
      proverVersion elapsedMs
    (∀ sub, sent = some sub → sub.proofs.length = ch.k.toNat ∧
      ∀ i < ch.k.toNat, ∃ tid proof, m.Proves ch.nonce ch.powLen tid i proof ∧
        sub.proofs[i]? = some (base64 (m.jam proof))) ∧
    (ch.nonceRule = nonceRule → threads ≠ 0 → threads.toNat ≤ capacity →
      ch.k.toNat ≤ capacity → ch.powLen.toNat ≤ directMax →
      (∀ tid i poke, i < ch.k →
        candidate (headerBelts ch.nonce) (nonceBelts ch.nonce i) ch.powLen = .ok poke →
        ∃ effects ms proof, m.poke tid i poke = some (effects, ms) ∧ Mined effects proof) →
      sent.isSome) := by
  intro sent
  constructor
  · intro sub hsub
    unfold sent benchSubmit at hsub
    split at hsub
    · cases hsub
    obtain ⟨perProof, hbench, rfl⟩ := Option.map_eq_some_iff.mp hsub
    obtain ⟨honce, hby⟩ := bench_indices horder hbench
    have hlen := length_of_indices honce
    refine ⟨by rw [List.length_map, hlen], ?_⟩
    intro i hi
    obtain ⟨p, hp⟩ : ∃ p, perProof[i]? = some p := ⟨_, List.getElem?_eq_getElem (by omega)⟩
    obtain rfl : p.i.toNat = i := index_of_getElem? honce hp
    obtain ⟨tid, out, hout, -, hjam⟩ := hby _ (List.mem_of_getElem? hp)
    obtain ⟨poke, effects, proof, hpoke, heffects, hm, hproof⟩ :=
      runProve_eq_ok.mp (runProve_client.mp hout)
    refine ⟨tid, proof, ⟨poke, effects, out.durationMs, ?_, ?_, hm⟩, ?_⟩
    · rw [UInt64.ofNat_toNat]
      exact hpoke
    · rw [UInt64.ofNat_toNat]
      exact heffects
    · rw [List.getElem?_map, hp, Option.map_some, hjam, hproof]
      rfl
  · intro hrule hthreads hcap hk hlen hall
    have hprove : ∀ tid, ∀ i < ch.k, ((m.client base64 capacity hcapacity).runProve tid i
        (headerBelts ch.nonce) (nonceBelts ch.nonce i) ch.powLen).isSome := by
      intro tid i hi
      obtain ⟨poke, hpoke⟩ := @candidate_isOk (headerBelts ch.nonce) (nonceBelts ch.nonce i)
        ch.powLen (length_seedToBelts _ _) (length_seedToBelts _ _) hlen
      obtain ⟨effects, ms, proof, heffects, hm⟩ := hall tid i poke hi hpoke
      have hok : m.runProve tid i (headerBelts ch.nonce) (nonceBelts ch.nonce i) ch.powLen =
          .ok ⟨ms, m.jam proof⟩ :=
        runProve_eq_ok.mpr ⟨poke, effects, proof, hpoke, heffects, hm, rfl⟩
      rw [runProve_client.mpr hok, Option.isSome_some]
    unfold sent
    rw [benchSubmit, if_neg (not_not.mpr hrule), Option.isSome_map]
    exact bench_isSome hthreads hcap hk horder hprove

/-- Kernels that print something first, and whose proof is the index. -/
def echoMiner : Miner where
  poke _ i _ :=
    let success := nest (.atom 0) [.atom 1, .atom (cord "command"), .atom (cord "pow"),
      .atom (cord "dumb-zkpow"), .atom i.toNat, .atom 2, .atom 3]
    some (.cell (.cell (.atom (cord "slog")) (.atom 0)) (.cell (mineResult success) (.atom 0)), 900)
  jam
    | .atom a => [UInt8.ofNat a]
    | .cell _ _ => []

theorem bench_mined_echo : ∃ sub,
    benchSubmit (echoMiner.client (fun jam => Kit.dec jam.length) 1000 (by decide)) 2 [1, 0]
      ⟨"7", 3, 64, nonceRule⟩ "m1-max" "0.1.0" 900 = some sub ∧ sub.proofs.length = 3 ∧
      ∃ tid proof, echoMiner.Proves "7" 64 tid 2 proof := by
  have hmined : ∀ tid (i : UInt64) (poke : Noun), i < 3 →
      candidate (headerBelts "7") (nonceBelts "7" i) 64 = .ok poke →
      ∃ effects ms proof, echoMiner.poke tid i poke = some (effects, ms) ∧
        Mined effects proof := by
    intro tid i poke _ _
    refine ⟨_, _, .atom i.toNat, rfl, [.cell (.atom (cord "slog")) (.atom 0)], _, _, rfl, ?_,
      ⟨_, _, _, rfl⟩⟩
    intro e he payload heq
    rw [List.mem_singleton.mp he] at heq
    have htag : cord "slog" ≠ cord "mine-result" := by decide
    exact htag (Noun.atom.inj (Noun.cell.inj heq).1)
  obtain ⟨hsent, hsends⟩ := bench_mined echoMiner (fun jam => Kit.dec jam.length)
    (show 1000 ≤ 2 ^ 63 - 1 by decide) ⟨"7", 3, 64, nonceRule⟩
    (show List.Perm [1, 0] (List.range (2 : UInt64).toNat) by decide) "m1-max" "0.1.0" 900
  obtain ⟨sub, hsub⟩ := Option.isSome_iff_exists.mp
    (hsends rfl (by decide) (by decide) (by decide) (by decide) hmined)
  obtain ⟨hlen, hproofs⟩ := hsent sub hsub
  obtain ⟨tid, proof, hproves, -⟩ := hproofs 2 (by decide)
  exact ⟨sub, hsub, hlen, tid, proof, hproves⟩

end Tock
end Nockmark
