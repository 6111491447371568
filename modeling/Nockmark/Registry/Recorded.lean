import Nockmark.Kernel.Decode
import Nockmark.Kernel.RunLog
import Nockmark.Registry.Pokes

/-!
# Registry.Recorded

Does a ZK submission that passed its checks reach the kernel, and come back as it was sent?

`nonce` becomes an atom of any size, `k` and `elapsed_ms` direct atoms, and the two strings cords.
So a number from `2^63` on panics, and a NUL at the end of a string is lost.

* `StateFits`, `fits_of_reach`: what a server's kernel holds decodes, as long as its ids do.
* `submit_poke`: what the kernel makes of a submission.
* `writesThrough_iff`: when a submission is decided by the kernel, and read back unchanged if it is
  recorded.
* `long_claim_panics`: a claimed time of `2^63` ms.
-/

namespace Nockmark
namespace Registry

open Kernel (RegistryState RunRecord Run Poke Noun softCause submitCause windowMs h1 directMax
  EndsInNul cord)

/-- The clock of the kernel's host is a u128. -/
def FitsDa (now : Nat) : Prop := now < 2 ^ 128

instance (now : Nat) : Decidable (FitsDa now) := by unfold FitsDa; infer_instance

structure StateFits (s : RegistryState) : Prop where
  runs : ∀ r ∈ s.runs, r.id < 2 ^ 64 → r.Fits
  issued : ∀ nonce c, s.challenges.lookup nonce = some c → c.issuedAt < 2 ^ 128

theorem StateFits.init : StateFits Kernel.init :=
  ⟨fun _ hr => (by cases hr), fun _ _ hc => (by cases hc)⟩

theorem StateFits.mint {s : RegistryState} (h : StateFits s) (nonce : Nat) {now : Nat}
    (hnow : FitsDa now) : StateFits (s.mint nonce now) := by
  refine ⟨h.runs, ?_⟩
  intro n c hc
  by_cases hn : n = nonce
  · subst hn
    rw [Kernel.lookup_mint_self] at hc
    cases hc
    exact hnow
  · rw [Kernel.lookup_mint_ne _ hn] at hc
    exact h.issued n c hc

theorem StateFits.record {s : RegistryState} (h : StateFits s) {r : Run}
    (hr : r.id < 2 ^ 64 → r.Fits) (hi : r.issuedAt < 2 ^ 128) : StateFits (s.record r) := by
  constructor
  · intro r' hr'
    rcases List.mem_cons.mp hr' with rfl | hr'
    · exact hr
    · exact h.runs r' hr'
  · intro n c hc
    by_cases hn : n = r.nonce
    · subst hn
      rw [Kernel.lookup_record_self] at hc
      cases hc
      exact hi
    · rw [Kernel.lookup_record_ne _ _ hn] at hc
      exact h.issued n c hc

theorem newRun_fits {s : RegistryState} {c : Kernel.Challenge} {now : Nat} (nonce : UInt64)
    (hardware proverVersion : String) (k elapsedMs : UInt64) (hi : c.issuedAt < 2 ^ 128)
    (hnow : FitsDa now) (hid : s.nextId < 2 ^ 64) :
    (s.newRun c now nonce.toNat (cord hardware) (cord proverVersion) k.toNat
      elapsedMs.toNat).Fits :=
  ⟨hid, nonce.toNat_lt, ⟨_, rfl⟩, ⟨_, rfl⟩, k.toNat_lt, elapsedMs.toNat_lt, hi, hnow⟩

theorem StateFits.step {zk : ZkEnv} {k : UInt64} {s : RegistryState} (h : StateFits s) {p : Poke}
    (hp : HandlerPoke zk k p) (hnow : FitsDa p.now) : StateFits (Kernel.step s p) := by
  obtain heq | ⟨-, heq⟩ | ⟨n, hw, pv, k', ms, c, hc, hl, -, -, -, -, heq⟩ := Kernel.step_cases s p
  · rw [heq]; exact h
  · rw [heq]; exact h.mint _ hnow
  · rw [heq]
    have hi := h.issued _ _ hl
    refine h.record ?_ hi
    cases hp with
    | mint => rw [Kernel.softCause_mintCause] at hc; cases hc
    | submit eny now hv hd =>
      rw [Kernel.softCause_submitCause hd] at hc
      cases hc
      exact newRun_fits _ _ _ _ _ hi hnow

theorem fits_of_reach {zk : ZkEnv} {k : UInt64} {s : RegistryState}
    (h : Kernel.kernel.Reach (fun _ p => HandlerPoke zk k p ∧ FitsDa p.now) s) : StateFits s :=
  h.inv StateFits.init fun _ _ hs hp => hs.step hp.1 hp.2

/-! ### One submission -/

/-- The challenge is there, unused and not stale. -/
def Open (s : RegistryState) (nonce : UInt64) (now : Nat) (c : Kernel.Challenge) : Prop :=
  s.challenges.lookup nonce.toNat = some c ∧ c.used = false ∧ now ≤ c.issuedAt + h1

/-- A submission is rejected; or its challenge is open, and then the kernel crashes on a clock that
went back, or records the run. -/
theorem submit_poke {s : RegistryState} {p : Poke} {nonce : UInt64}
    {hardware proverVersion k elapsedMs : Nat}
    (hc : softCause p.dat =
      some (.submitRun nonce.toNat hardware proverVersion k elapsedMs)) :
    (∃ reason, Kernel.poke s p = some ([.rejected reason], s) ∧
      ∀ c, Open s nonce p.now c → c.issuedAt ≤ p.now ∧ windowMs c.issuedAt p.now < elapsedMs) ∨
    (∃ c, Open s nonce p.now c ∧ p.now < c.issuedAt ∧ Kernel.poke s p = none) ∨
    (∃ c, Open s nonce p.now c ∧ c.issuedAt ≤ p.now ∧ elapsedMs ≤ windowMs c.issuedAt p.now ∧
      Kernel.poke s p = some ([.runRecorded s.nextId],
        s.record (s.newRun c p.now nonce.toNat hardware proverVersion k elapsedMs))) := by
  unfold Kernel.poke Open
  simp only [hc]
  cases hl : s.challenges.lookup nonce.toNat with
  | none => exact .inl ⟨_, rfl, fun c hc => by cases hc.1⟩
  | some c =>
    have honly : ∀ c', some c = some c' → c' = c := fun c' h => (Option.some.inj h).symm
    simp only
    split
    · rename_i hu
      left
      refine ⟨_, rfl, ?_⟩
      rintro c' ⟨hc', hu', -⟩
      rw [honly c' hc', hu] at hu'
      cases hu'
    rename_i hu
    split
    · rename_i hs
      left
      refine ⟨_, rfl, ?_⟩
      rintro c' ⟨hc', -, hs'⟩
      rw [honly c' hc'] at hs'
      exact absurd hs (Nat.not_lt.mpr hs')
    rename_i hs
    have hopen : some c = some c ∧ c.used = false ∧ p.now ≤ c.issuedAt + h1 :=
      ⟨rfl, by simpa using hu, Nat.not_lt.mp hs⟩
    split
    · rename_i hb
      exact .inr (.inl ⟨c, hopen, hb, rfl⟩)
    rename_i hb
    split
    · rename_i he
      left
      refine ⟨_, rfl, ?_⟩
      rintro c' ⟨hc', -, -⟩
      rw [honly c' hc']
      exact ⟨Nat.not_lt.mp hb, he⟩
    · rename_i he
      exact .inr (.inr ⟨c, hopen, Nat.not_lt.mp hb, Nat.not_lt.mp he, rfl⟩)

/-- The kernel decides, and if it records the run, the leaderboard decodes and has the run first,
as it was submitted. -/
def WritesThrough (s : RegistryState) (eny now : Nat) (nonce : UInt64)
    (hardware proverVersion : String) (k elapsedMs : UInt64) : Prop :=
  ∃ a s', Kernel.submitRun s eny now nonce hardware proverVersion k elapsedMs = some (.ok a, s') ∧
    ∀ id, a = .ok id → ∃ rec recs, Kernel.leaderboard s' = .ok (rec :: recs) ∧ rec.id = id ∧
      rec.nonce = nonce.toNat ∧ rec.hardware = hardware ∧ rec.proverVersion = proverVersion ∧
      rec.k = k.toNat ∧ rec.elapsedMs = elapsedMs.toNat

/-- The numbers are direct atoms. If the challenge is open, the clock has not gone back behind its
mint; and if the claimed time fits too, neither string ends in a NUL, and there is an id left. -/
structure Writable (s : RegistryState) (now : Nat) (nonce : UInt64)
    (hardware proverVersion : String) (k elapsedMs : UInt64) : Prop where
  k : k.toNat ≤ directMax
  elapsed : elapsedMs.toNat ≤ directMax
  forward : ∀ c, Open s nonce now c → c.issuedAt ≤ now
  text : ∀ c, Open s nonce now c → elapsedMs.toNat ≤ windowMs c.issuedAt now →
    ¬ EndsInNul hardware ∧ ¬ EndsInNul proverVersion ∧ s.nextId < 2 ^ 64

theorem submitCause_isSome {nonce : UInt64} {hardware proverVersion : String}
    {k elapsedMs : UInt64} :
    (∃ dat, submitCause nonce hardware proverVersion k elapsedMs = some dat) ↔
      k.toNat ≤ directMax ∧ elapsedMs.toNat ≤ directMax := by
  unfold submitCause Kernel.D
  by_cases hk : k.toNat ≤ directMax
  · by_cases he : elapsedMs.toNat ≤ directMax
    · simp [hk, he]
    · simp [hk, he]
  · simp [hk]

/-- What the leaderboard says first after a run was recorded. -/
theorem leaderboard_record {s : RegistryState} (hs : StateFits s) (hlog : Kernel.RunLog s)
    (hid : s.nextId < 2 ^ 64) {c : Kernel.Challenge} {now : Nat} (hi : c.issuedAt < 2 ^ 128)
    (hnow : FitsDa now) (nonce : UInt64) (hardware proverVersion : String)
    (k elapsedMs : UInt64) :
    ∃ recs, Kernel.leaderboard (s.record (s.newRun c now nonce.toNat (cord hardware)
      (cord proverVersion) k.toNat elapsedMs.toNat)) =
      .ok (⟨s.nextId, nonce.toNat, String.ofList (Kernel.trimNul hardware.toList),
        String.ofList (Kernel.trimNul proverVersion.toList), k.toNat, elapsedMs.toNat,
        c.issuedAt, now⟩ :: recs) := by
  have hfits := newRun_fits (s := s) nonce hardware proverVersion k elapsedMs hi hnow hid
  refine Kernel.leaderboard_cons (Kernel.record_runs _ _) ?_ (Kernel.fromNoun_of_fits hfits rfl rfl)
  intro r hr
  rcases List.mem_cons.mp hr with rfl | hr
  · exact hfits
  · exact hs.runs r hr (lt_trans (hlog.id_lt hr) hid)

/-- A recorded run comes back as it was sent, but for NULs at the end of its strings. -/
theorem writesThrough_recorded {s : RegistryState} (hs : StateFits s) (hlog : Kernel.RunLog s)
    {c : Kernel.Challenge} {now : Nat} (hi : c.issuedAt < 2 ^ 128) (hnow : FitsDa now) {eny : Nat}
    {nonce : UInt64} {hardware proverVersion : String} {k elapsedMs : UInt64}
    (hsub : Kernel.submitRun s eny now nonce hardware proverVersion k elapsedMs =
      some (Kernel.submitAnswer [.runRecorded s.nextId],
        s.record (s.newRun c now nonce.toNat (cord hardware) (cord proverVersion) k.toNat
          elapsedMs.toNat))) :
    WritesThrough s eny now nonce hardware proverVersion k elapsedMs ↔
      ¬ EndsInNul hardware ∧ ¬ EndsInNul proverVersion ∧ s.nextId < 2 ^ 64 := by
  unfold WritesThrough
  rw [hsub, Kernel.submitAnswer]
  constructor
  · rintro ⟨a, s', heq, hread⟩
    split at heq
    · rename_i hid
      cases heq
      obtain ⟨recs, hrecs⟩ :=
        leaderboard_record hs hlog hid hi hnow nonce hardware proverVersion k elapsedMs
      obtain ⟨rec, recs', hrec, -, -, hhw, hpv, -, -⟩ := hread s.nextId rfl
      rw [hrecs] at hrec
      cases hrec
      exact ⟨(Kernel.trimNul_eq_iff hardware).mp hhw,
        (Kernel.trimNul_eq_iff proverVersion).mp hpv, hid⟩
    · cases heq
  · rintro ⟨hhw, hpv, hid⟩
    obtain ⟨recs, hrecs⟩ :=
      leaderboard_record hs hlog hid hi hnow nonce hardware proverVersion k elapsedMs
    rw [if_pos hid]
    refine ⟨_, _, rfl, ?_⟩
    rintro id hid'
    cases hid'
    exact ⟨_, recs, hrecs, rfl, rfl, (Kernel.trimNul_eq_iff hardware).mpr hhw,
      (Kernel.trimNul_eq_iff proverVersion).mpr hpv, rfl, rfl⟩

/-- For a kernel that has seen the pokes of a server's handlers: a submission is decided, and comes
back as it was sent if it is recorded, exactly when it is `Writable`. -/
theorem writesThrough_iff {zk : ZkEnv} {instanceK : UInt64} {s : RegistryState}
    (h : Kernel.kernel.Reach (fun _ p => HandlerPoke zk instanceK p ∧ FitsDa p.now) s) {now : Nat}
    (hnow : FitsDa now) (eny : Nat) (nonce : UInt64) (hardware proverVersion : String)
    (k elapsedMs : UInt64) :
    WritesThrough s eny now nonce hardware proverVersion k elapsedMs ↔
      Writable s now nonce hardware proverVersion k elapsedMs := by
  have hs := fits_of_reach h
  cases hdat : submitCause nonce hardware proverVersion k elapsedMs with
  | none =>
    constructor
    · rintro ⟨a, s', hsub, -⟩
      rw [Kernel.submitRun, hdat] at hsub
      cases hsub
    · intro hw
      have hd : ∃ dat, submitCause nonce hardware proverVersion k elapsedMs = some dat :=
        submitCause_isSome.mpr ⟨hw.k, hw.elapsed⟩
      rw [hdat] at hd
      obtain ⟨dat, hd⟩ := hd
      cases hd
  | some dat =>
    obtain ⟨hk, he⟩ := submitCause_isSome.mp ⟨dat, hdat⟩
    have hsub : Kernel.submitRun s eny now nonce hardware proverVersion k elapsedMs =
        some (Kernel.pokeWith s ⟨eny, now, dat⟩ Kernel.submitAnswer) := by
      rw [Kernel.submitRun, hdat]
      rfl
    have hsoft : softCause (Poke.mk eny now dat).dat = _ := Kernel.softCause_submitCause hdat
    rw [Kernel.pokeWith] at hsub
    rcases submit_poke (s := s) hsoft with ⟨reason, hp, hno⟩ | ⟨c, ho, hb, hp⟩ |
      ⟨c, ho, hf, hfits, hp⟩
    · -- rejected: decided, and nothing to read back
      rw [hp] at hsub
      constructor
      · intro _
        refine ⟨hk, he, fun c hc => (hno c hc).1, ?_⟩
        intro c hc hle
        exact absurd (hno c hc).2 (Nat.not_lt.mpr hle)
      · intro _
        exact ⟨.error reason, s, hsub, fun id hid => by cases hid⟩
    · -- the kernel crashes
      rw [hp] at hsub
      constructor
      · rintro ⟨a, s', heq, -⟩
        rw [hsub] at heq
        cases heq
      · intro hw
        exact absurd (hw.forward c ho) (Nat.not_le.mpr hb)
    · -- recorded
      rw [hp] at hsub
      rw [writesThrough_recorded hs (Kernel.runLog_of_reach h) (hs.issued _ _ ho.1) hnow hsub]
      have honly : ∀ c', Open s nonce now c' → c' = c :=
        fun c' ho' => Option.some.inj (ho'.1.symm.trans ho.1)
      constructor
      · exact fun ht => ⟨hk, he, fun c' hc' => honly c' hc' ▸ hf, fun _ _ _ => ht⟩
      · exact fun hw => hw.text c ho hfits

theorem reach_minted7 (zk : ZkEnv) (k : UInt64) :
    Kernel.kernel.Reach (fun _ p => HandlerPoke zk k p ∧ FitsDa p.now) minted7 := by
  let p : Poke := ⟨7, 0, Kernel.mintCause⟩
  have hstep : minted7 = Kernel.kernel.step Kernel.kernel.init p := by
    show minted7 = Kernel.step Kernel.init p
    rw [Kernel.step, Kernel.poke, Kernel.softCause_mintCause]
    rfl
  have hp : HandlerPoke zk k p ∧ FitsDa p.now := ⟨.mint 7 0, by decide⟩
  rw [hstep]
  exact .step .init hp

theorem writesThrough_iff_7 :
    WritesThrough minted7 0 Kernel.s1 7 "m1-max" "0.1.0" 1 900 := by
  rw [writesThrough_iff (reach_minted7 (provesOnly "7") 1) (by decide)]
  refine ⟨by decide, by decide, ?_, fun _ _ _ => by decide⟩
  rintro c ⟨hc, -, -⟩
  obtain rfl : Kernel.Challenge.mk 0 false = c := Option.some.inj hc
  exact Nat.zero_le _

/-- A request that passes every check, with a claimed time of `2^63` ms, panics before the kernel
is asked. -/
theorem long_claim_panics :
    ¬ ∀ (zk : ZkEnv) (k : UInt64) (s : RegistryState),
      Kernel.kernel.Reach (fun _ p => HandlerPoke zk k p ∧ FitsDa p.now) s →
      ∀ (body : Except String RunSubmission) (nonce : UInt64) (sub : RunSubmission),
        validate zk k body = .ok (nonce, sub) → ∀ eny now, FitsDa now →
        WritesThrough s eny now nonce sub.hardware sub.proverVersion k sub.elapsedMs := by
  intro h
  obtain ⟨a, s', hsub, -⟩ := h (provesOnly "7") 1 minted7 (reach_minted7 _ _)
    (.ok { oneProof "7" with elapsedMs := 0x8000000000000000 }) 7 _ rfl 0 Kernel.s1 (by decide)
  have hpanic : submitCause 7 (oneProof "7").hardware (oneProof "7").proverVersion 1
      0x8000000000000000 = none := rfl
  rw [Kernel.submitRun, hpanic] at hsub
  cases hsub

end Registry
end Nockmark
