import Nockmark.Registry.Challenge
import Nockmark.Registry.Submit
import Nockmark.Tock.Bench

/-!
# Registry.HonestRun

A client and the registry derive the same belts.

`tock bench --submit` takes the nonce of the reply as its seed, proves the indices below `k` on as
many threads as it was told, and sends the proofs in the order of their indices. The registry hashes
the nonce of the submission again, for every index on its own.

* `CarriesPuzzle`: what is assumed of the prover.
* `benchSubmit_honest`: what a submission holds, whatever the order in which the tasks ended.
* `honest_run_binds`: it has `k` proofs and each of them passes the binding check.
* `honest_run_validates`: with proofs that verify, the registry admits it.
-/

namespace Nockmark
namespace Registry

open Tock (Client Proved bench benchSubmit indices seedToBelts)

/-- The first puzzle of a proof is the one that the prover was given. -/
def CarriesPuzzle (c : Client) (decode : List UInt8 → Option Proof) : Prop :=
  ∀ tid i com nonce len out, c.runProve tid i com nonce len = some out →
    ∃ proof, decode out.proofJam = some proof ∧ proof.firstPuzzle = some ⟨com, nonce, len⟩

/-- The body of a client's request, as the registry reads it. -/
def received (sub : Tock.Submission) : RunSubmission :=
  ⟨sub.nonce, sub.hardware, sub.proverVersion, sub.elapsedMs, sub.proofs⟩

theorem fromValue_reply (cfg : Config) (n : UInt64) :
    Tock.Challenge.fromValue (zkChallengeReply cfg n).body =
      some ⟨u64String n, cfg.k, defaultPowLen, Tock.nonceRule⟩ := by
  have hk : Tock.jsonU64 (u64 cfg.k) = some cfg.k := by
    simp [Tock.jsonU64, u64, Kit.Json.Value.asNum, cfg.k.toNat_lt]
  have hlen : Tock.jsonU64 (.num 64) = some defaultPowLen := rfl
  simp [zkChallengeReply, Reply.ok, Tock.Challenge.fromValue, Kit.Json.Members.ofList,
    Kit.Json.Value.asStr, hk, hlen]

/-- Proof `i` is the one made from the belts of the challenge `n` and the index `i`. -/
def ProvedAt (c : Client) (n : UInt64) (i : ℕ) (jam : List UInt8) : Prop :=
  ∃ tid out, c.runProve tid (UInt64.ofNat i) (seedToBelts (u64String n) "header")
    (seedToBelts (u64String n ++ "/" ++ Kit.dec i) "nonce") defaultPowLen = some out ∧
    jam = out.proofJam

/-- A submission of `k` proofs for the challenge `n`: every index proved once, in order, from its
own belts. -/
structure Honest (c : Client) (n k : UInt64) (perProof : List Proved) (sub : Tock.Submission) :
    Prop where
  nonce : sub.nonce = u64String n
  once : indices perProof = List.range k.toNat
  proofs : sub.proofs = perProof.map fun p => c.base64 p.jam
  proved : ∀ i p, perProof[i]? = some p → ProvedAt c n i p.jam

section Honest

variable {c : Client} {zk : ZkEnv} {cfg : Config} {n : UInt64} {ch : Tock.Challenge}
  {threads : UInt64} {order : List ℕ} {hardware proverVersion : String} {elapsedMs : UInt64}
  {sub : Tock.Submission} {perProof : List Proved}

theorem benchSubmit_honest
    (hch : Tock.Challenge.fromValue (zkChallengeReply cfg n).body = some ch)
    (horder : order.Perm (List.range threads.toNat))
    (h : benchSubmit c threads order ch hardware proverVersion elapsedMs = some sub) :
    ∃ perProof, bench c threads order ch.nonce ch.k ch.powLen = some perProof ∧
      Honest c n cfg.k perProof sub := by
  rw [fromValue_reply] at hch
  cases hch
  unfold benchSubmit at h
  split at h
  · cases h
  obtain ⟨perProof, hbench, rfl⟩ := Option.map_eq_some_iff.mp h
  obtain ⟨honce, hby⟩ := Tock.bench_indices horder hbench
  refine ⟨perProof, hbench, rfl, honce, rfl, ?_⟩
  intro i p hp
  have hi := Tock.index_of_getElem? honce hp
  subst hi
  obtain ⟨tid, out, hout, -, hjam⟩ := hby p (List.mem_of_getElem? hp)
  exact ⟨tid, out, by rwa [UInt64.ofNat_toNat], hjam⟩

theorem Honest.length (h : Honest c n cfg.k perProof sub) : sub.proofs.length = cfg.k.toNat := by
  rw [h.proofs, List.length_map, Tock.length_of_indices h.once]

/-- The registry decodes entry `i` and finds the puzzle that it expects. -/
theorem Honest.binds (h : Honest c n cfg.k perProof sub) (hcarries : CarriesPuzzle c zk.decode)
    (hbase64 : ∀ jam, zk.base64 (c.base64 jam) = some jam) {i : ℕ} (hi : i < cfg.k.toNat) :
    ∃ b64 jam, sub.proofs[i]? = some b64 ∧ zk.base64 b64 = some jam ∧ ProvedAt c n i jam ∧
      checkBinding zk.decode jam sub.nonce i defaultPowLen = .ok () := by
  have hlt : i < perProof.length := by
    rw [Tock.length_of_indices h.once]
    exact hi
  have hp : perProof[i]? = some perProof[i] := List.getElem?_eq_getElem hlt
  have hproved := h.proved i _ hp
  have hget : sub.proofs[i]? = some (c.base64 perProof[i].jam) := by
    rw [h.proofs, List.getElem?_map, hp]
    rfl
  refine ⟨_, _, hget, hbase64 _, hproved, ?_⟩
  obtain ⟨tid, out, hout, hjam⟩ := hproved
  obtain ⟨proof, hd, hpuzzle⟩ := hcarries _ _ _ _ _ _ hout
  rw [hjam, h.nonce]
  exact checkBinding_of_expected hd hpuzzle

theorem checkProofs_of_pass {nonce : String} {proofs : List String} {i : ℕ}
    (hpass : ∀ j b64, proofs[j]? = some b64 → ∃ jam, zk.base64 b64 = some jam ∧
      checkBinding zk.decode jam nonce (i + j) defaultPowLen = .ok () ∧
      zk.verify (i + j) jam = .valid) : checkProofs zk nonce i proofs = .ok () := by
  induction proofs generalizing i with
  | nil => rfl
  | cons b64 proofs ih =>
    obtain ⟨jam, hb, hc, hv⟩ := hpass 0 b64 rfl
    rw [Nat.add_zero] at hc hv
    simp only [checkProofs, hb, hc, hv]
    apply ih
    intro j b64' hj
    rw [show i + 1 + j = i + (j + 1) by omega]
    exact hpass (j + 1) b64' hj

/-- An honest submission within the bounds of the descriptors is admitted, if its proofs verify. -/
theorem honest_run_validates (h : Honest c n cfg.k perProof sub)
    (hcarries : CarriesPuzzle c zk.decode)
    (hbase64 : ∀ jam, zk.base64 (c.base64 jam) = some jam)
    (hverify : ∀ j jam, ProvedAt c n j jam → zk.verify j jam = .valid)
    (helapsed : sub.elapsedMs ≠ 0) (hhardware : sub.hardware.utf8ByteSize ≤ 128)
    (hversion : sub.proverVersion.utf8ByteSize ≤ 64) :
    validate zk cfg.k (.ok (received sub)) = .ok (n, received sub) := by
  have hnonce : parseU64 sub.nonce = .ok n := by
    rw [h.nonce]
    exact parseU64_u64String n
  have hlen : UInt64.ofNat sub.proofs.length = cfg.k := by
    rw [h.length, UInt64.ofNat_toNat]
  have hcheck : checkProofs zk sub.nonce 0 sub.proofs = .ok () := by
    apply checkProofs_of_pass
    intro j b64 hj
    have hlt : j < cfg.k.toNat := by
      rw [← h.length]
      exact (List.getElem?_eq_some_iff.mp hj).1
    obtain ⟨b64', jam, hget, hb, hproved, hc⟩ := h.binds hcarries hbase64 hlt
    rw [hj] at hget
    cases hget
    rw [Nat.zero_add]
    exact ⟨jam, hb, hc, hverify j jam hproved⟩
  simp only [validate, hnonce, received, helapsed, Nat.not_lt.mpr hhardware,
    Nat.not_lt.mpr hversion, hlen, hcheck, if_false, ne_eq, not_true_eq_false]

end Honest

/-- For every `k`, every number of threads and every order in which the tasks end: what the client
sends for the challenge `n` has `k` proofs, of every index once and in order, and the registry's
checks of their number and of each binding pass. And it does send it, on a host whose vectors hold
that many threads and proofs and whose prover does not fail. -/
theorem honest_run_binds {c : Client} {zk : ZkEnv} (hcarries : CarriesPuzzle c zk.decode)
    (hbase64 : ∀ jam, zk.base64 (c.base64 jam) = some jam) {cfg : Config} {n : UInt64}
    {ch : Tock.Challenge}
    (hch : Tock.Challenge.fromValue (zkChallengeReply cfg n).body = some ch) {threads : UInt64}
    {order : List ℕ} (horder : order.Perm (List.range threads.toNat)) (hardware
    proverVersion : String) (elapsedMs : UInt64) :
    (∀ sub, benchSubmit c threads order ch hardware proverVersion elapsedMs = some sub →
      (∃ perProof, bench c threads order ch.nonce ch.k ch.powLen = some perProof ∧
        indices perProof = List.range cfg.k.toNat ∧
        sub.proofs = perProof.map fun p => c.base64 p.jam) ∧
      sub.proofs.length = cfg.k.toNat ∧ UInt64.ofNat sub.proofs.length = cfg.k ∧
      ∀ i < cfg.k.toNat, ∃ b64 jam, sub.proofs[i]? = some b64 ∧ zk.base64 b64 = some jam ∧
        ProvedAt c n i jam ∧ checkBinding zk.decode jam sub.nonce i defaultPowLen = .ok ()) ∧
    (threads ≠ 0 → threads.toNat ≤ c.capacity → cfg.k.toNat ≤ c.capacity →
      (∀ tid, ∀ i < cfg.k, (c.runProve tid i (seedToBelts (u64String n) "header")
        (seedToBelts (u64String n ++ "/" ++ Kit.dec i.toNat) "nonce") defaultPowLen).isSome) →
      (benchSubmit c threads order ch hardware proverVersion elapsedMs).isSome) := by
  constructor
  · intro sub hsub
    obtain ⟨perProof, hbench, hhonest⟩ := benchSubmit_honest hch horder hsub
    have hlen := hhonest.length
    refine ⟨⟨perProof, hbench, hhonest.once, hhonest.proofs⟩, hlen, ?_, ?_⟩
    · rw [hlen, UInt64.ofNat_toNat]
    · exact fun i hi => hhonest.binds hcarries hbase64 hi
  · intro hthreads hcap hk hprove
    rw [fromValue_reply] at hch
    cases hch
    have hsome := Tock.bench_isSome hthreads hcap hk horder hprove
    rw [benchSubmit, if_neg (by simp), Option.isSome_map]
    exact hsome

/-! ### Three proofs on two threads -/

/-- A prover that knows the proofs of challenge 7; a jam is the index. -/
def sevenProver : Client where
  runProve _ i com nonce len :=
    if i < 256 ∧ (⟨com, nonce, len⟩ : Puzzle) = expectedPuzzle "7" i.toNat 64 then
      some ⟨900, [UInt8.ofNat i.toNat]⟩
    else none
  base64 jam := String.ofList (jam.map fun b => Char.ofNat b.toNat)
  capacity := 1000
  capacity_le := by decide

/-- A registry that reads such jams and accepts them. -/
def sevenZk : ZkEnv where
  base64 text := some (text.toList.map fun ch => UInt8.ofNat ch.toNat)
  decode
    | [b] => some ⟨[.other, .puzzle (expectedPuzzle "7" b.toNat 64)]⟩
    | _ => none
  verify _ _ := .valid
  nockAppError _ := ""

theorem carriesPuzzle_seven : CarriesPuzzle sevenProver sevenZk.decode := by
  intro tid i com nonce len out hout
  simp only [sevenProver] at hout
  split at hout
  · rename_i h
    cases hout
    have hi : (UInt8.ofNat i.toNat).toNat = i.toNat :=
      UInt8.toNat_ofNat_of_lt' (UInt64.lt_iff_toNat_lt.mp h.1)
    refine ⟨⟨[.other, .puzzle (expectedPuzzle "7" (UInt8.ofNat i.toNat).toNat 64)]⟩, rfl, ?_⟩
    rw [h.2, hi]
    rfl
  · cases hout

theorem base64_seven (jam : List UInt8) : sevenZk.base64 (sevenProver.base64 jam) = some jam := by
  have hchar : ∀ b : UInt8, UInt8.ofNat (Char.ofNat b.toNat).toNat = b := by
    intro b
    rw [Char.toNat_ofNat, if_pos (.inl (lt_trans b.toNat_lt (by decide))), UInt8.ofNat_toNat]
  simp [sevenZk, sevenProver, Function.comp_def, hchar]

theorem honest_run_binds_seven : ∃ sub,
    benchSubmit sevenProver 2 [1, 0] ⟨"7", 3, 64, Tock.nonceRule⟩ "m1-max" "0.1.0" 900 = some sub ∧
      sub.proofs.length = 3 := by
  obtain ⟨hsent, hsends⟩ := @honest_run_binds sevenProver sevenZk carriesPuzzle_seven base64_seven
    (zkConfig 3) 7 ⟨"7", 3, 64, Tock.nonceRule⟩ (fromValue_reply (zkConfig 3) 7) 2 [1, 0]
    (by decide) "m1-max" "0.1.0" 900
  have hprove : ∀ tid, ∀ i < (zkConfig 3).k,
      (sevenProver.runProve tid i (seedToBelts (u64String 7) "header")
        (seedToBelts (u64String 7 ++ "/" ++ Kit.dec i.toNat) "nonce") defaultPowLen).isSome := by
    intro tid i hi
    have hlt : i < 256 := UInt64.lt_trans hi (by decide : (zkConfig 3).k < 256)
    have h7 : u64String 7 = "7" := rfl
    have hpuzzle : (⟨seedToBelts "7" "header", seedToBelts ("7" ++ "/" ++ Kit.dec i.toNat) "nonce",
        defaultPowLen⟩ : Puzzle) = expectedPuzzle "7" i.toNat 64 := rfl
    rw [h7]
    simp only [sevenProver, hlt, hpuzzle, and_self, if_true, Option.isSome_some]
  obtain ⟨sub, hsub⟩ := Option.isSome_iff_exists.mp
    (hsends (by decide) (by decide) (by decide) hprove)
  exact ⟨sub, hsub, (hsent sub hsub).2.1⟩

end Registry
end Nockmark
