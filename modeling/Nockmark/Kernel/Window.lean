import Nockmark.Kernel.Driver

/-!
# Kernel.Window

Every recorded run lies within the hour after its mint, on the kernel's own clock, and claims no
more time than passed.

* `inWindow_of_reach`: whatever is poked, with any entropy and any times.
-/

namespace Nockmark
namespace Kernel

structure Run.InWindow (r : Run) : Prop where
  issued_le : r.issuedAt ≤ r.submittedAt
  submitted_le : r.submittedAt ≤ r.issuedAt + h1
  elapsed_le : r.elapsedMs ≤ windowMs r.issuedAt r.submittedAt

def RegistryState.InWindow (s : RegistryState) : Prop := ∀ r ∈ s.runs, r.InWindow

theorem RegistryState.InWindow.step {s : RegistryState} (h : s.InWindow) (p : Poke) :
    (step s p).InWindow := by
  obtain heq | ⟨-, heq⟩ | ⟨n, hw, pv, k, ms, c, -, -, -, h1, h2, h3, heq⟩ := step_cases s p
  · rw [heq]; exact h
  · rw [heq]; exact h
  · rw [heq]
    intro r hr
    rcases List.mem_cons.mp hr with rfl | hr
    · exact ⟨h1, h2, h3⟩
    · exact h r hr

theorem inWindow_of_reach {s : RegistryState} {G : RegistryState → Poke → Prop}
    (h : kernel.Reach G s) : s.InWindow :=
  h.inv (fun r hr => by cases hr) (fun _ p hi _ => hi.step p)

end Kernel
end Nockmark
