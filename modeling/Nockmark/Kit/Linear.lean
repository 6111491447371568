import Nockmark.Kit.Machine

/-!
# Kit.Linear

Operations that threads carry out in several steps, as if each were done at one of them.

A specification is a machine over operations with a reply to each. A view says of a machine which of
its steps are the point of an operation, and of which thread; an operation may also be one of the
machine itself, such as a restart. Which step is the point may depend on what the thread will do
later, as long as it is known then.

* `View.points`: the operations of a run in the order of their points.
* `Linear`: what a step must satisfy, for a relation between the machine and the specification. At a
  point the operation is done, and its thread owes the reply; elsewhere nothing is done, and who
  owes a reply goes on owing it.
* `related_run`, `points_nodup`, `settled_run`: a run is the run of its points, a thread has at most
  one, and what it ends in is owed at that point.
-/

namespace Kit

/-- Operations done at once. -/
structure Spec (α ω ρ : Type) extends Machine α ω where
  reply : α → ω → ρ

structure View (σ τ ι ω : Type) where
  thread : σ → ℕ → τ
  point : σ → ι → Option (Option ℕ × ω)

section Linear

variable {σ τ ι α ω ρ : Type}

def View.points (V : View σ τ ι ω) (M : Machine σ ι) : σ → List ι → List (Option ℕ × ω)
  | _, [] => []
  | s, i :: is => (V.point s i).toList ++ V.points M (M.step s i) is

/-- `Owes o r t`: a thread in state `t` has done `o`, and if it replies, then `r`. -/
structure Linear (M : Machine σ ι) (V : View σ τ ι ω) (S : Spec α ω ρ) (R : σ → α → Prop)
    (Owes : ω → ρ → τ → Prop) (s : σ) (i : ι) : Prop where
  quiet : ∀ a, R s a → V.point s i = none → R (M.step s i) a
  done : ∀ a who o, R s a → V.point s i = some (who, o) → R (M.step s i) (S.step a o)
  replies : ∀ a id o, R s a → V.point s i = some (some id, o) →
    Owes o (S.reply a o) (V.thread (M.step s i) id)
  owes : ∀ id o r, Owes o r (V.thread s id) →
    (∀ o', V.point s i ≠ some (some id, o')) ∧ Owes o r (V.thread (M.step s i) id)

/-- Every step of the run is as `Linear` says. -/
def AllLinear (M : Machine σ ι) (V : View σ τ ι ω) (S : Spec α ω ρ) (R : σ → α → Prop)
    (Owes : ω → ρ → τ → Prop) : σ → List ι → Prop :=
  M.Allowed (Linear M V S R Owes)

variable {M : Machine σ ι} {V : View σ τ ι ω} {S : Spec α ω ρ} {R : σ → α → Prop}
  {Owes : ω → ρ → τ → Prop} {s : σ} {is : List ι}

theorem View.points_append (V : View σ τ ι ω) (M : Machine σ ι) (s : σ) (is js : List ι) :
    V.points M s (is ++ js) = V.points M s is ++ V.points M (M.run s is) js := by
  induction is generalizing s with
  | nil => rfl
  | cons i is ih =>
    rw [List.cons_append, View.points, ih, View.points, List.append_assoc]
    rfl

theorem Linear.related {i : ι} (h : Linear M V S R Owes s i) {a : α} (hr : R s a) :
    R (M.step s i) (S.run a ((V.point s i).toList.map Prod.snd)) := by
  cases hp : V.point s i with
  | none => exact h.quiet a hr hp
  | some p => exact h.done a p.1 p.2 hr hp

/-- A run is the run of its points. -/
theorem related_run (h : AllLinear M V S R Owes s is) {a : α} (hr : R s a) :
    R (M.run s is) (S.run a ((V.points M s is).map Prod.snd)) := by
  induction is generalizing s a with
  | nil => exact hr
  | cons i is ih =>
    rw [Machine.run_cons, View.points, List.map_append, Machine.run_append]
    exact ih h.2 (h.1.related hr)

/-- A thread that owes a reply has no further point, and goes on owing it. -/
theorem owes_run (h : AllLinear M V S R Owes s is) {id : ℕ} {o : ω} {r : ρ}
    (ho : Owes o r (V.thread s id)) :
    id ∉ (V.points M s is).filterMap Prod.fst ∧ Owes o r (V.thread (M.run s is) id) := by
  induction is generalizing s with
  | nil => exact ⟨List.not_mem_nil, ho⟩
  | cons i is ih =>
    obtain ⟨hpoint, hnext⟩ := h.1.owes id o r ho
    obtain ⟨hmem, hlast⟩ := ih h.2 hnext
    rw [Machine.run_cons, View.points, List.filterMap_append, List.mem_append, not_or]
    refine ⟨⟨?_, hmem⟩, hlast⟩
    intro hid
    obtain ⟨p, hp, hfst⟩ := List.mem_filterMap.mp hid
    rw [Option.mem_toList] at hp
    exact hpoint p.2 (hp.trans (congrArg some (Prod.ext hfst rfl)))

theorem points_nodup (h : AllLinear M V S R Owes s is) {a : α} (hr : R s a) :
    ((V.points M s is).filterMap Prod.fst).Nodup := by
  induction is generalizing s a with
  | nil => exact .nil
  | cons i is ih =>
    have hrest := ih h.2 (h.1.related hr)
    rw [View.points, List.filterMap_append]
    cases hp : V.point s i with
    | none => exact hrest
    | some p =>
      obtain ⟨who, o⟩ := p
      cases who with
      | none => exact hrest
      | some id =>
        have ho := h.1.replies a id o hr hp
        exact List.nodup_cons.mpr ⟨(owes_run h.2 ho).1, hrest⟩

/-- A thread that has yet to do an operation of the kind `C` does one of that kind, or nothing. -/
def Awaits (M : Machine σ ι) (V : View σ τ ι ω) (C : ω → Prop) (Fresh : τ → Prop) (s : σ) (i : ι) :
    Prop :=
  ∀ id, Fresh (V.thread s id) →
    ((∀ o, V.point s i ≠ some (some id, o)) → Fresh (V.thread (M.step s i) id)) ∧
      ∀ o, V.point s i = some (some id, o) → C o

/-- A thread that begins an operation has it before it still, or has had its point; and then it
owes what the specification replied there. -/
theorem settled_run (h : AllLinear M V S R Owes s is) {a : α} (hr : R s a) {C : ω → Prop}
    {Fresh : τ → Prop} (ha : ∀ s i, Awaits M V C Fresh s i) {id : ℕ} (hf : Fresh (V.thread s id)) :
    Fresh (V.thread (M.run s is) id) ∨
    ∃ pre o post, V.points M s is = pre ++ (some id, o) :: post ∧ C o ∧
      Owes o (S.reply (S.run a (pre.map Prod.snd)) o) (V.thread (M.run s is) id) := by
  induction is generalizing s a with
  | nil => exact .inl hf
  | cons i is ih =>
    obtain ⟨hfresh, hkind⟩ := ha s i id hf
    by_cases hpoint : ∀ o, V.point s i ≠ some (some id, o)
    · rcases ih h.2 (h.1.related hr) (hfresh hpoint) with hlast | ⟨pre, o, post, heq, hc, ho⟩
      · exact .inl hlast
      · refine .inr ⟨(V.point s i).toList ++ pre, o, post, ?_, hc, ?_⟩
        · rw [View.points, heq, List.append_assoc]
        · rw [List.map_append, Machine.run_append]
          exact ho
    · obtain ⟨o, hp⟩ := not_forall_not.mp hpoint
      refine .inr ⟨[], o, V.points M (M.step s i) is, ?_, hkind o hp, ?_⟩
      · rw [View.points, hp]
        rfl
      · exact (owes_run h.2 (h.1.replies a id o hr hp)).2

end Linear
end Kit
