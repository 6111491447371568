import Mathlib.Data.List.Perm.Subperm

/-!
# Kit.FixedWindow

Instants counted in fixed windows of length `w`. A window opens at the first instant that no
earlier one covers, and covers all instants less than `w` later.

* `slots`: for each instant the window it falls in, and its place there, counted from 1.
* `length_window_le`: at most `m` instants of one window have a place up to `m`.
* `length_span_le`: and at most `2 * m` of all instants in a span as long as a window, however it
  lies, because it meets at most two of them.
-/

namespace Kit
namespace FixedWindow

/-- The place of an instant: the start of its window, and its number there. -/
structure Slot where
  start : Nat
  nth : Nat
  deriving DecidableEq

/-- The slot of an instant, from the slot of the one before. -/
def next (w : Nat) : Option Slot → Nat → Slot
  | none, t => ⟨t, 1⟩
  | some s, t => if w ≤ t - s.start then ⟨t, 1⟩ else ⟨s.start, s.nth + 1⟩

def slots (w : Nat) : Option Slot → List Nat → List (Nat × Slot)
  | _, [] => []
  | last, t :: ts => (t, next w last t) :: slots w (some (next w last t)) ts

/-- Further on in the same window, or in a later one. -/
def Slot.Before (w : Nat) (a b : Slot) : Prop :=
  a.start = b.start ∧ a.nth < b.nth ∨ a.start + w ≤ b.start

/-- The instant is covered by the window of its slot. -/
def Covers (w : Nat) (a : Nat × Slot) : Prop := a.2.start ≤ a.1 ∧ a.1 < a.2.start + w

theorem Slot.Before.trans {w : Nat} {a b c : Slot} (h : a.Before w b) (h' : b.Before w c) :
    a.Before w c := by
  unfold Slot.Before at *
  omega

section Slots

variable {w : Nat}

theorem before_next (hw : 0 < w) (s : Slot) (t : Nat) : s.Before w (next w (some s) t) := by
  rw [next]
  split
  · exact .inr (by simp only; omega)
  · exact .inl ⟨rfl, Nat.lt_succ_self _⟩

theorem nth_pos (last : Option Slot) (t : Nat) : 1 ≤ (next w last t).nth := by
  cases last with
  | none => exact Nat.le_refl _
  | some s =>
    rw [next]
    split
    · exact Nat.le_refl _
    · exact Nat.le_add_left _ _

theorem nth_pos_of_mem {last : Option Slot} {ts : List Nat} {a : Nat × Slot}
    (h : a ∈ slots w last ts) : 1 ≤ a.2.nth := by
  induction ts generalizing last with
  | nil => cases h
  | cons t ts ih =>
    rcases List.mem_cons.mp h with rfl | h
    · exact nth_pos last t
    · exact ih h

theorem before_of_mem (hw : 0 < w) {s : Slot} {ts : List Nat} {a : Nat × Slot}
    (h : a ∈ slots w (some s) ts) : s.Before w a.2 := by
  induction ts generalizing s with
  | nil => cases h
  | cons t ts ih =>
    have hnext := before_next hw s t
    rcases List.mem_cons.mp h with rfl | h
    · exact hnext
    · exact hnext.trans (ih h)

theorem nth_le_of_mem {last : Option Slot} {ts : List Nat} {a : Nat × Slot}
    (h : a ∈ slots w last ts) : a.2.nth ≤ (last.elim 0 Slot.nth) + ts.length := by
  induction ts generalizing last with
  | nil => cases h
  | cons t ts ih =>
    have hnext : (next w last t).nth ≤ last.elim 0 Slot.nth + 1 := by
      cases last with
      | none => exact Nat.le_refl _
      | some s =>
        rw [next]
        split
        · exact Nat.le_add_left _ _
        · exact Nat.le_refl _
    rw [List.length_cons]
    rcases List.mem_cons.mp h with rfl | h
    · simp only
      omega
    · have := ih h
      rw [Option.elim_some] at this
      omega

/-- Slots go on within a window or to a later one. -/
theorem pairwise_before (hw : 0 < w) (last : Option Slot) (ts : List Nat) :
    (slots w last ts).Pairwise fun a b => a.2.Before w b.2 := by
  induction ts generalizing last with
  | nil => exact .nil
  | cons t ts ih => exact .cons (fun a ha => before_of_mem hw ha) (ih _)

theorem start_le_next {last : Option Slot} {t : Nat} (h : ∀ s, last = some s → s.start ≤ t) :
    (next w last t).start ≤ t := by
  cases last with
  | none => exact Nat.le_refl _
  | some s =>
    rw [next]
    split
    · exact Nat.le_refl _
    · exact h s rfl

/-- At times that do not go back, every window covers the instants that are counted in it. -/
theorem covers_of_mem (hw : 0 < w) {last : Option Slot} {ts : List Nat}
    (hs : ts.Pairwise (· ≤ ·)) (hlast : ∀ s, last = some s → ∀ t ∈ ts, s.start ≤ t)
    {a : Nat × Slot} (h : a ∈ slots w last ts) : Covers w a := by
  induction ts generalizing last with
  | nil => cases h
  | cons t ts ih =>
    have hstart : (next w last t).start ≤ t :=
      start_le_next fun s hs => hlast s hs t List.mem_cons_self
    rcases List.mem_cons.mp h with rfl | h
    · refine ⟨hstart, ?_⟩
      cases last with
      | none => exact Nat.lt_add_of_pos_right hw
      | some s =>
        simp only [next]
        split
        · exact Nat.lt_add_of_pos_right hw
        · simp only
          omega
    · refine ih (List.pairwise_cons.mp hs).2 ?_ h
      intro s hs' t' ht'
      cases hs'
      exact Nat.le_trans hstart ((List.pairwise_cons.mp hs).1 t' ht')

/-! ### Counting -/

/-- Places of one window differ, so there are at most as many as the largest of them. -/
theorem length_le_of_same_start {l : List (Nat × Slot)}
    (hl : l.Pairwise fun a b => a.2.Before w b.2) (hw : 0 < w) {s m : Nat}
    (h : ∀ a ∈ l, a.2.start = s ∧ 1 ≤ a.2.nth ∧ a.2.nth ≤ m) : l.length ≤ m := by
  have hnodup : (l.map fun a => a.2.nth).Nodup := by
    rw [List.Nodup, List.pairwise_map]
    refine hl.imp_of_mem ?_
    intro a b ha hb hab
    have := (h a ha).1
    have := (h b hb).1
    unfold Slot.Before at hab
    omega
  have hsub : (l.map fun a => a.2.nth) ⊆ List.range' 1 m := by
    intro n hn
    obtain ⟨a, ha, rfl⟩ := List.mem_map.mp hn
    obtain ⟨-, h1, h2⟩ := h a ha
    exact List.mem_range'_1.mpr ⟨h1, by omega⟩
  simpa using (List.subperm_of_subset hnodup hsub).length_le

/-- An instant in the span of a window is counted in that window. -/
theorem start_eq_of_mem (hw : 0 < w) {ts : List Nat} (hs : ts.Pairwise (· ≤ ·))
    {a c : Nat × Slot} (ha : a ∈ slots w none ts) (hc : c ∈ slots w none ts)
    (h : a.2.start ≤ c.1 ∧ c.1 < a.2.start + w) : c.2.start = a.2.start := by
  have hcov : Covers w c := covers_of_mem hw hs (fun _ h => by cases h) hc
  have hpair := List.pairwise_iff_getElem.mp (pairwise_before hw none ts)
  obtain ⟨i, hi, rfl⟩ := List.getElem_of_mem ha
  obtain ⟨j, hj, rfl⟩ := List.getElem_of_mem hc
  unfold Covers at hcov
  rcases Nat.lt_trichotomy i j with hlt | rfl | hlt
  · have := hpair i j hi hj hlt
    unfold Slot.Before at this
    omega
  · rfl
  · have := hpair j i hj hi hlt
    unfold Slot.Before at this
    omega

theorem length_window_le (hw : 0 < w) {ts : List Nat} (hs : ts.Pairwise (· ≤ ·))
    {a : Nat × Slot} (ha : a ∈ slots w none ts) (m : Nat) :
    ((slots w none ts).filter fun c =>
      decide (a.2.start ≤ c.1 ∧ c.1 < a.2.start + w ∧ c.2.nth ≤ m)).length ≤ m := by
  refine length_le_of_same_start ((pairwise_before hw none ts).filter _) hw (s := a.2.start) ?_
  intro c hc
  obtain ⟨hmem, hp⟩ := List.mem_filter.mp hc
  have hc' := of_decide_eq_true hp
  exact ⟨start_eq_of_mem hw hs ha hmem ⟨hc'.1, hc'.2.1⟩, nth_pos_of_mem hmem, hc'.2.2⟩

/-- Of three windows, the first ends before the second opens, and the third opens a window's
length after it. -/
theorem two_windows {a b c : Nat × Slot} {lo : Nat} (hab : a.2.start + w ≤ b.2.start)
    (hbc : b.2.start + w ≤ c.2.start) (ha : Covers w a) (hc : Covers w c) (hlo : lo ≤ a.1)
    (hhi : c.1 ≤ lo + w) : False := by
  unfold Covers at ha hc
  omega

/-- Behind a window that a span meets, it meets one more at most. -/
theorem length_later_le (hw : 0 < w) {a : Nat × Slot} {l : List (Nat × Slot)} {lo m : Nat}
    (hl : l.Pairwise fun b c => b.2.Before w c.2) (ha : Covers w a) (hlo : lo ≤ a.1)
    (hlater : ∀ c ∈ l, a.2.start + w ≤ c.2.start)
    (hspan : ∀ c ∈ l, Covers w c ∧ c.1 ≤ lo + w ∧ 1 ≤ c.2.nth ∧ c.2.nth ≤ m) :
    l.length ≤ m := by
  cases l with
  | nil => exact Nat.zero_le _
  | cons b l =>
    refine length_le_of_same_start hl hw (s := b.2.start) ?_
    intro c hc
    obtain ⟨hcov, hhi, hnth⟩ := hspan c hc
    refine ⟨?_, hnth⟩
    rcases List.mem_cons.mp hc with rfl | hc
    · rfl
    rcases (List.pairwise_cons.mp hl).1 c hc with ⟨heq, -⟩ | hle
    · exact heq.symm
    · exact (two_windows (hlater b List.mem_cons_self) hle ha hcov hlo hhi).elim

/-- A span as long as a window meets at most two windows. -/
theorem length_span_le (hw : 0 < w) {ts : List Nat} (hs : ts.Pairwise (· ≤ ·)) (lo m : Nat) :
    ((slots w none ts).filter fun a =>
      decide (lo ≤ a.1 ∧ a.1 ≤ lo + w ∧ a.2.nth ≤ m)).length ≤ 2 * m := by
  have hpair := (pairwise_before hw none ts).filter
    fun a => decide (lo ≤ a.1 ∧ a.1 ≤ lo + w ∧ a.2.nth ≤ m)
  have hmem : ∀ a ∈ (slots w none ts).filter
      (fun a => decide (lo ≤ a.1 ∧ a.1 ≤ lo + w ∧ a.2.nth ≤ m)),
      lo ≤ a.1 ∧ Covers w a ∧ a.1 ≤ lo + w ∧ 1 ≤ a.2.nth ∧ a.2.nth ≤ m := by
    intro a ha
    obtain ⟨hin, hp⟩ := List.mem_filter.mp ha
    obtain ⟨hlo, hhi, hnth⟩ := of_decide_eq_true hp
    exact ⟨hlo, covers_of_mem hw hs (fun _ h => by cases h) hin, hhi, nth_pos_of_mem hin, hnth⟩
  generalize (slots w none ts).filter _ = l at hpair hmem
  cases l with
  | nil => exact Nat.zero_le _
  | cons a l =>
    -- the window of the first instant, and everything behind it
    have hsplit := List.length_eq_length_filter_add (l := a :: l)
      (fun b => decide (b.2.start = a.2.start))
    have hfirst : ((a :: l).filter fun b => decide (b.2.start = a.2.start)).length ≤ m := by
      refine length_le_of_same_start (hpair.filter _) hw (s := a.2.start) ?_
      intro b hb
      obtain ⟨hin, hp⟩ := List.mem_filter.mp hb
      exact ⟨of_decide_eq_true hp, (hmem b hin).2.2.2⟩
    have hrest : ((a :: l).filter fun b => !decide (b.2.start = a.2.start)).length ≤ m := by
      obtain ⟨hlo, hcov, -⟩ := hmem a List.mem_cons_self
      refine length_later_le hw (hpair.filter _) hcov hlo ?_ fun c hc =>
        (hmem c (List.mem_filter.mp hc).1).2
      intro b hb
      obtain ⟨hin, hp⟩ := List.mem_filter.mp hb
      have hne : b.2.start ≠ a.2.start := by simpa using hp
      rcases List.mem_cons.mp hin with rfl | hl
      · exact absurd rfl hne
      · rcases (List.pairwise_cons.mp hpair).1 b hl with ⟨heq, -⟩ | hle
        · exact absurd heq.symm hne
        · exact hle
    omega

end Slots

end FixedWindow
end Kit
