import Nockmark.Kernel.Driver
import Nockmark.Registry.Store

/-!
# Registry.Lockstep

The kernel and the AI store, fed the same mints and the same submissions on one clock.

The store reads the clock in milliseconds and the kernel as `@da`, so that `~h1` is
`AI_WINDOW_MS`. The kernel keeps one map with a `used` flag, the store a map of pending challenges
and a set of used nonces.

* `SameChallenge`: how the two represent one challenge. `Lockstep`: they do so for every nonce.
* `submit_cases`: from states in lockstep, what both make of a submission.
* `same_decision`: so they accept the same submissions and reject the others alike.
-/

namespace Nockmark
namespace Registry

open Kernel (RegistryState Poke Noun Effect s1 h1 windowMs softCause mintCause end6)
open Tock (Bytes32)

/-- The `@da` of a time in milliseconds after the epoch. -/
def daOf (epoch : Nat) (t : UInt64) : Nat := epoch + t.toNat * s1 / 1000

theorem daOf_mono (epoch : Nat) {t t' : UInt64} (h : t ≤ t') : daOf epoch t ≤ daOf epoch t' := by
  rw [UInt64.le_iff_toNat_le] at h
  exact Nat.add_le_add_left (Nat.div_le_div_right (Nat.mul_le_mul_right _ h)) _

/-- The two staleness tests agree, to the millisecond. -/
theorem stale_iff (epoch : Nat) {t t' : UInt64} (h : t ≤ t') :
    daOf epoch t' > daOf epoch t + h1 ↔ aiWindowMs < satSub t' t := by
  have hw : aiWindowMs.toNat = 3600000 := rfl
  rw [UInt64.lt_iff_toNat_lt, satSub_toNat, hw]
  rw [UInt64.le_iff_toNat_le] at h
  unfold daOf h1 s1
  omega

/-! ### The two machines -/

structure Pair where
  kernel : RegistryState
  ai : AiStore
  disk : Disk
  minted : List UInt64
  now : UInt64

/-- The submission to the kernel is a noun of its own. -/
inductive Call where
  | mint (nowMs : UInt64) (eny : Nat) (target : Option Bytes32)
  | submit (nowMs : UInt64) (eny : Nat) (sub : Submission) (dat : Noun)

/-- The low 64 bits of the entropy. -/
def nonceOf (eny : Nat) : UInt64 := UInt64.ofNat (end6 eny)

theorem nonceOf_toNat (eny : Nat) : (nonceOf eny).toNat = end6 eny :=
  UInt64.toNat_ofNat_of_lt' (Nat.mod_lt _ (Nat.two_pow_pos 64))

def Pair.step (J : SerdeJson) (epoch : Nat) (w : Pair) : Call → Pair
  | .mint nowMs eny target =>
    let r := recordChallenge J .written w.ai w.disk (nonceOf eny) nowMs target
    { kernel := Kernel.step w.kernel ⟨eny, daOf epoch nowMs, mintCause⟩
      ai := r.2.1
      disk := r.2.2
      minted := nonceOf eny :: w.minted
      now := nowMs }
  | .submit nowMs eny sub dat =>
    let r := commitRun J .written w.ai w.disk sub nowMs
    { w with
      kernel := Kernel.step w.kernel ⟨eny, daOf epoch nowMs, dat⟩
      ai := r.2.1
      disk := r.2.2
      now := nowMs }

/-- Both empty. -/
def pair (J : SerdeJson) (epoch : Nat) : Kit.Machine Pair Call :=
  ⟨⟨Kernel.init, .empty, none, [], 0⟩, Pair.step J epoch⟩

inductive Decision where
  | recorded
  | rejected (reason : String)
  deriving DecidableEq

def kernelDecision : Option (List Effect × RegistryState) → Option Decision
  | some ([.runRecorded _], _) => some .recorded
  | some ([.rejected reason], _) => some (.rejected reason)
  | _ => none

def storeDecision : Commit → Option Decision
  | .recorded _ => some .recorded
  | .rejected reason => some (.rejected reason)
  | .ioError => none

/-- The noun submits a run for `nonce`, with a claimed time that fits the window of its
challenge. -/
def InTime (s : RegistryState) (nonce : UInt64) (now : Nat) (dat : Noun) : Prop :=
  ∃ hardware proverVersion k elapsedMs,
    softCause dat = some (.submitRun nonce.toNat hardware proverVersion k elapsedMs) ∧
    ∀ c, s.challenges.lookup nonce.toNat = some c → elapsedMs ≤ windowMs c.issuedAt now

/-- The clock does not go back, and no nonce is minted twice. -/
def Clocked (epoch : Nat) (w : Pair) : Call → Prop
  | .mint nowMs eny _ => w.now ≤ nowMs ∧ nonceOf eny ∉ w.minted
  | .submit nowMs _ sub dat => w.now ≤ nowMs ∧ InTime w.kernel sub.nonce (daOf epoch nowMs) dat

/-! ### One challenge, twice -/

/-- What the kernel's map, the pending map and the used set say of one nonce. -/
inductive SameChallenge (epoch : Nat) (now : UInt64) :
    Option Kernel.Challenge → Option PendingChallenge → Bool → Prop where
  | unknown : SameChallenge epoch now none none false
  | unused {p : PendingChallenge} (h : p.issuedAtMs ≤ now) :
      SameChallenge epoch now (some ⟨daOf epoch p.issuedAtMs, false⟩) (some p) false
  | used (issuedAt : Nat) : SameChallenge epoch now (some ⟨issuedAt, true⟩) none true

theorem SameChallenge.later {epoch : Nat} {now now' : UInt64} {c : Option Kernel.Challenge}
    {p : Option PendingChallenge} {used : Bool} (h : SameChallenge epoch now c p used)
    (hle : now ≤ now') : SameChallenge epoch now' c p used := by
  cases h with
  | unknown => exact .unknown
  | unused hp => exact .unused (UInt64.le_trans hp hle)
  | used issuedAt => exact .used issuedAt

theorem SameChallenge.not_used {epoch : Nat} {now : UInt64} {p : Option PendingChallenge}
    {used : Bool} (h : SameChallenge epoch now none p used) : used = false := by
  cases h; rfl

theorem SameChallenge.isSome_of_pending {epoch : Nat} {now : UInt64} {c : Option Kernel.Challenge}
    {p : PendingChallenge} {used : Bool} (h : SameChallenge epoch now c (some p) used) :
    c.isSome = true := by
  cases h; rfl

structure Lockstep (epoch : Nat) (w : Pair) : Prop where
  same : ∀ n : UInt64, SameChallenge epoch w.now (w.kernel.challenges.lookup n.toNat)
    (w.ai.pending.lookup n) (decide (n ∈ w.ai.used))
  minted : ∀ n : UInt64, (w.kernel.challenges.lookup n.toNat).isSome → n ∈ w.minted

theorem Lockstep.init (J : SerdeJson) (epoch : Nat) : Lockstep epoch (pair J epoch).init :=
  ⟨fun _ => .unknown, fun n h => by cases h⟩

/-- Both reject the submission, for the same reason, or both record it against the same
challenge. -/
theorem submit_cases {epoch : Nat} {w : Pair} (hw : Lockstep epoch w) {nowMs : UInt64} (eny : Nat)
    {sub : Submission} {dat : Noun} (hle : w.now ≤ nowMs)
    (ht : InTime w.kernel sub.nonce (daOf epoch nowMs) dat) :
    (∃ reason, reason ∈ ["unknown-nonce", "nonce-used", "stale-nonce"] ∧
      Kernel.poke w.kernel ⟨eny, daOf epoch nowMs, dat⟩ = some ([.rejected reason], w.kernel) ∧
      challengeStatus w.ai sub.nonce nowMs = .error reason) ∨
    (∃ p r, challengeStatus w.ai sub.nonce nowMs = .ok p ∧ r.nonce = sub.nonce.toNat ∧
      Kernel.poke w.kernel ⟨eny, daOf epoch nowMs, dat⟩ =
        some ([.runRecorded w.kernel.nextId], w.kernel.record r)) := by
  obtain ⟨hardware, proverVersion, k, elapsedMs, hdat, hfits⟩ := ht
  have hs := hw.same sub.nonce
  unfold Kernel.poke challengeStatus
  simp only [hdat]
  generalize hc : w.kernel.challenges.lookup sub.nonce.toNat = c at hs
  generalize hp : w.ai.pending.lookup sub.nonce = p at hs
  generalize hu : decide (sub.nonce ∈ w.ai.used) = used at hs
  cases hs with
  | unknown =>
    left
    rw [if_neg (of_decide_eq_false hu)]
    exact ⟨"unknown-nonce", by simp, rfl, rfl⟩
  | used issuedAt =>
    left
    rw [if_pos (of_decide_eq_true hu)]
    exact ⟨"nonce-used", by simp, rfl, rfl⟩
  | @unused p hissued =>
    rw [if_neg (of_decide_eq_false hu)]
    have hle' := UInt64.le_trans hissued hle
    by_cases hst : aiWindowMs < satSub nowMs p.issuedAtMs
    · left
      simp only [if_pos hst, if_pos ((stale_iff epoch hle').mpr hst)]
      exact ⟨"stale-nonce", by simp, rfl, rfl⟩
    · right
      have hmono := daOf_mono epoch hle'
      have hin : elapsedMs ≤ windowMs (daOf epoch p.issuedAtMs) (daOf epoch nowMs) :=
        hfits ⟨_, false⟩ hc
      simp only [if_neg hst, if_neg (mt (stale_iff epoch hle').mp hst)]
      simp only [Bool.false_eq_true, if_false, if_neg (Nat.not_lt.mpr hmono),
        if_neg (Nat.not_lt.mpr hin)]
      exact ⟨p, _, rfl, rfl, rfl⟩

theorem Lockstep.mint {J : SerdeJson} {epoch : Nat} {w : Pair} (hw : Lockstep epoch w)
    {nowMs : UInt64} {eny : Nat} (target : Option Bytes32)
    (ha : Clocked epoch w (.mint nowMs eny target)) :
    Lockstep epoch (w.step J epoch (.mint nowMs eny target)) := by
  obtain ⟨hle, hfresh⟩ := ha
  have hk : Kernel.step w.kernel ⟨eny, daOf epoch nowMs, mintCause⟩ =
      w.kernel.mint (nonceOf eny).toNat (daOf epoch nowMs) := by
    rw [Kernel.step, Kernel.poke, Kernel.softCause_mintCause, nonceOf_toNat]
  -- a nonce that was never minted is new to both
  have hnew : decide (nonceOf eny ∈ w.ai.used) = false := by
    have hs := hw.same (nonceOf eny)
    rw [Option.not_isSome_iff_eq_none.mp (mt (hw.minted _) hfresh)] at hs
    exact hs.not_used
  simp only [Pair.step, recordChallenge_ok, hk]
  constructor
  · intro n
    by_cases hn : n = nonceOf eny
    · subst hn
      show SameChallenge epoch nowMs _ ((w.ai.pending.insert _ _).lookup _)
        (decide (nonceOf eny ∈ w.ai.used))
      rw [Kernel.lookup_mint_self, Finmap.lookup_insert, hnew]
      exact .unused (p := ⟨nowMs, target⟩) (UInt64.le_refl _)
    · have hne : n.toNat ≠ (nonceOf eny).toNat := fun h => hn (UInt64.toNat_inj.mp h)
      rw [Kernel.lookup_mint_ne _ hne]
      simp only [AiStore.apply, Finmap.lookup_insert_of_ne _ hn]
      exact (hw.same n).later hle
  · intro n h
    by_cases hn : n = nonceOf eny
    · rw [hn]; exact List.mem_cons_self
    · have hne : n.toNat ≠ (nonceOf eny).toNat := fun h => hn (UInt64.toNat_inj.mp h)
      rw [Kernel.lookup_mint_ne _ hne] at h
      exact List.mem_cons_of_mem _ (hw.minted n h)

theorem Lockstep.submit {J : SerdeJson} {epoch : Nat} {w : Pair} (hw : Lockstep epoch w)
    {nowMs : UInt64} {eny : Nat} {sub : Submission} {dat : Noun}
    (ha : Clocked epoch w (.submit nowMs eny sub dat)) :
    Lockstep epoch (w.step J epoch (.submit nowMs eny sub dat)) := by
  obtain ⟨hle, ht⟩ := ha
  rcases submit_cases hw eny hle ht with ⟨reason, -, hk, hs⟩ | ⟨p, r, hs, hr, hk⟩
  · simp only [Pair.step, Kernel.step, hk, commitRun, hs]
    exact ⟨fun n => (hw.same n).later hle, hw.minted⟩
  · have hmem : (w.kernel.challenges.lookup sub.nonce.toNat).isSome := by
      have h := hw.same sub.nonce
      rw [(challengeStatus_eq_ok hs).2.1] at h
      exact h.isSome_of_pending
    simp only [Pair.step, Kernel.step, hk, commitRun_written J w.disk hs]
    constructor
    · intro n
      by_cases hn : n = sub.nonce
      · subst hn
        rw [← hr, Kernel.lookup_record_self]
        simp only [AiStore.apply, newRun, Finmap.lookup_erase, Finset.mem_insert_self,
          decide_true]
        exact .used _
      · have hne : n.toNat ≠ r.nonce := fun h => hn (UInt64.toNat_inj.mp (h.trans hr))
        rw [Kernel.lookup_record_ne _ _ hne]
        simp only [AiStore.apply, newRun, Finmap.lookup_erase_ne hn, Finset.mem_insert, hn,
          false_or]
        exact (hw.same n).later hle
    · intro n h
      by_cases hn : n = sub.nonce
      · rw [hn]; exact hw.minted _ hmem
      · have hne : n.toNat ≠ r.nonce := fun h => hn (UInt64.toNat_inj.mp (h.trans hr))
        rw [Kernel.lookup_record_ne _ _ hne] at h
        exact hw.minted n h

theorem lockstep_of_reach {J : SerdeJson} {epoch : Nat} {w : Pair}
    (h : (pair J epoch).Reach (Clocked epoch) w) : Lockstep epoch w := by
  refine h.inv (Lockstep.init J epoch) ?_
  intro w call hw ha
  cases call with
  | mint nowMs eny target => exact hw.mint target ha
  | submit nowMs eny sub dat => exact hw.submit ha

/-- After any mints of new nonces and any submissions, on a clock that does not go back, a
submission whose claimed time fits is accepted by both or rejected by both for the same reason. -/
theorem same_decision {J : SerdeJson} {epoch : Nat} {w : Pair}
    (h : (pair J epoch).Reach (Clocked epoch) w) {nowMs : UInt64} {eny : Nat} {sub : Submission}
    {dat : Noun} (ha : Clocked epoch w (.submit nowMs eny sub dat)) :
    ∃ d : Decision,
      d ∈ [.recorded, .rejected "unknown-nonce", .rejected "nonce-used", .rejected "stale-nonce"] ∧
      kernelDecision (Kernel.poke w.kernel ⟨eny, daOf epoch nowMs, dat⟩) = some d ∧
      storeDecision (commitRun J .written w.ai w.disk sub nowMs).1 = some d := by
  obtain ⟨hle, ht⟩ := ha
  rcases submit_cases (lockstep_of_reach h) eny hle ht with
    ⟨reason, hreason, hk, hs⟩ | ⟨p, r, hs, -, hk⟩
  · refine ⟨.rejected reason, ?_, ?_, ?_⟩
    · simpa using hreason
    · rw [hk]; rfl
    · simp only [commitRun, hs]; rfl
  · refine ⟨.recorded, List.mem_cons_self, ?_, ?_⟩
    · rw [hk]; rfl
    · rw [commitRun_written J w.disk hs]; rfl

/-- Nonce 7, minted at second 1, on both sides. -/
def mintedBoth : Pair := (pair .compact 0).run (pair .compact 0).init [.mint 1000 7 none]

def lastInstant : Call :=
  .submit 3601000 0 ⟨7, .dense, "m1-max", "0.1.0", .fill 32 0xff, 900, [3]⟩
    ((Kernel.submitCause 7 "m1-max" "0.1.0" 1 900).getD (.atom 0))

/-- At the exact expiry instant both record the run. -/
theorem same_decision_lastInstant :
    ∃ eny sub dat, lastInstant = .submit 3601000 eny sub dat ∧
      kernelDecision (Kernel.poke mintedBoth.kernel ⟨eny, daOf 0 3601000, dat⟩) = some .recorded ∧
      storeDecision (commitRun .compact .written mintedBoth.ai mintedBoth.disk sub 3601000).1 =
        some .recorded := by
  have h : (pair .compact 0).Reach (Clocked 0) mintedBoth :=
    Kit.Machine.Reach.run .init ⟨⟨by decide, List.not_mem_nil⟩, trivial⟩
  have ha : Clocked 0 mintedBoth lastInstant := by
    refine ⟨by decide, Kernel.cord "m1-max", Kernel.cord "0.1.0", 1, 900, by decide, ?_⟩
    intro c hc
    obtain rfl : Kernel.Challenge.mk (daOf 0 1000) false = c := Option.some.inj hc
    decide
  obtain ⟨d, -, hk, hs⟩ := same_decision h ha
  have hd : d = .recorded := Option.some.inj (hk.symm.trans (by decide))
  exact ⟨_, _, _, rfl, hk.trans (by rw [hd]), hs.trans (by rw [hd])⟩

end Registry
end Nockmark
