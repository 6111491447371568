import Nockmark.Registry.AiSubmit
import Nockmark.Registry.Submit
import Nockmark.Tock.Hardware

/-!
# Registry.Descriptor

What the registry does with the hardware descriptor of an honest client.

Both tracks look at its length alone, and that after it was cut to 128 bytes by the client.

* `NeverRefused`: a request with this descriptor is refused just where one without any is.
* `descriptor_admissible`: so it is with every descriptor the client sends, which is the longest
  prefix of the whole one that 128 bytes hold.
* `descriptor_names_host`: between device and host it says `host`.
-/

namespace Nockmark
namespace Registry

open Tock

/-- On neither track is a request refused over its hardware. -/
def NeverRefused (hardware : String) : Prop :=
  (∀ (env : ZkEnv) (k : UInt64) (sub : RunSubmission) (r : Reply),
    validate env k (.ok { sub with hardware }) = .error r ↔
      validate env k (.ok { sub with hardware := "" }) = .error r) ∧
  ∀ (env : AiEnv) (aiK : UInt64) (q : Statement) (sub : AiRunSubmission) (r : Reply),
    validateAi env aiK q (.ok { sub with hardware }) = .error r ↔
      validateAi env aiK q (.ok { sub with hardware := "" }) = .error r

theorem neverRefused_of_le {hardware : String} (h : hardware.utf8ByteSize ≤ 128) :
    NeverRefused hardware := by
  have hlong : ¬ hardware.utf8ByteSize > 128 := Nat.not_lt.mpr h
  have hempty : ¬ "".utf8ByteSize > 128 := by decide
  constructor
  · intro env k sub r
    simp only [validate, if_neg hlong, if_neg hempty]
    split
    · rfl
    iterate 3
      split
      · rfl
    split <;> simp
  · intro env aiK q sub r
    simp only [validateAi, bodyStatement, if_neg hlong, if_neg hempty]
    split
    · rfl
    split
    · rfl
    iterate 5
      split
      · rfl
    split <;> simp

/-- A GPU's name, the host as it was read, and what 128 bytes hold of the two. -/
theorem descriptor_admissible (device : String) (hw : Hardware) :
    (∀ s, (Kit.Budget.scanDown (isCharBoundary s) 128).isSome) ∧
    (∃ host, hardwareSummary hw = some host ∧ LongestPrefix 128 (hostText hw) host ∧
      NeverRefused host) ∧
    (∃ s, hardwareSummaryWithDevice (some device) hw = some s ∧
      LongestPrefix 128 (device ++ " · host " ++ hostText hw) s ∧ NeverRefused s) ∧
    hardwareSummaryWithDevice (some device) hw = cap128 (device ++ " · host " ++ hostText hw) ∧
    ∀ b : Backend, ∃ s, b.hardwareDescriptor hw = some s ∧ NeverRefused s := by
  have hscan : ∀ s, (Kit.Budget.scanDown (isCharBoundary s) 128).isSome := by
    intro s
    rw [scanDown_isCharBoundary]
    rfl
  obtain ⟨host, hhost, hlong⟩ := capBytes_longest 128 (hostText hw)
  obtain ⟨s, hs, hslong⟩ := capBytes_longest 128 (device ++ " · host " ++ hostText hw)
  have hdevice := hardwareSummaryWithDevice_eq device hw
  refine ⟨hscan, ⟨host, hhost, hlong, neverRefused_of_le hlong.fits⟩,
    ⟨s, hdevice.trans hs, hslong, neverRefused_of_le hslong.fits⟩, hdevice, ?_⟩
  intro b
  obtain ⟨sent, hsent, hsentLong⟩ := hardwareDescriptor_longest b hw
  exact ⟨sent, hsent, neverRefused_of_le hsentLong.fits⟩

/-- A host that tells its system and nothing else. -/
def bareHost : Hardware := ⟨none, none, none, "Linux", "x86_64"⟩

theorem descriptor_names_host :
    ¬ ∀ (device : String) (hw : Hardware) (s : String),
      hardwareSummaryWithDevice (some device) hw = some s →
        LongestPrefix 128 (device ++ " · " ++ hostText hw) s := by
  intro h
  have hs : hardwareSummaryWithDevice (some "RTX 4090") bareHost =
      some "RTX 4090 · host unknown CPU / Linux / x86_64" := by decide
  have hbytes := (h _ _ _ hs).bytes
  exact absurd hbytes (by decide)

end Registry
end Nockmark
