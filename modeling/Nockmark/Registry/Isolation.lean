import Nockmark.Kit.FixedWindow
import Nockmark.Registry.Limiter

/-!
# Registry.Isolation

Keys do not disturb each other, as long as the map is never cleared: the limiter answers like a
ledger with one counter for each bucket, none of which is ever dropped. An entry that a sweep
drops has expired, and counts from then on like one that is not there.

* `answers_eq_ledger`: the limiter and the ledger, by induction on the run.
* `answers_alone`: so a bucket's answers are those of its own hits alone.
* `granted_eq`: the answers of one bucket, by its fixed windows.
-/

namespace Nockmark
namespace Registry

open Kit.Keyed (cell Forgets)
open Kit.FixedWindow (Slot slots)

/-- One counter of the ledger. -/
def countHit (maxPerWindow : UInt32) (window : Nat) (entry : Option (Nat × UInt32)) (h : Hit) :
    Except Nat Unit × (Nat × UInt32) :=
  (judge maxPerWindow window (counted window entry h.now) h.now, counted window entry h.now)

/-- The answers of counters that are never dropped, one for each bucket. -/
def ledger (maxPerWindow : UInt32) (window : Nat) (run : List Hit) :
    List (Hit × Except Nat Unit) :=
  Kit.Keyed.answers (countHit maxPerWindow window) Hit.bucket (fun _ => none) run

/-- The hits of one bucket. -/
def hitsOf (b : String) (run : List Hit) : List Hit := run.filter fun h => h.bucket = b

def answersTo (b : String) (as : List (Hit × Except Nat Unit)) : List (Hit × Except Nat Unit) :=
  as.filter fun a => a.1.bucket = b

/-- The instants of the hits that were let in. -/
def granted (as : List (Hit × Except Nat Unit)) : List Nat :=
  (as.filter fun a => a.2.isOk).map fun a => a.1.now

/-- The fixed windows of one bucket. -/
def windowsOf (window : Nat) (b : String) (run : List Hit) : List (Nat × Slot) :=
  slots window none ((hitsOf b run).map Hit.now)

/-- The times of a run do not go back. -/
def InOrder (run : List Hit) : Prop := run.Pairwise fun h h' => h.now ≤ h'.now

/-! ### The ledger -/

namespace RateLimiter

theorem answers_eq_ledger {l : RateLimiter} {m : String → Option (Nat × UInt32)} {run : List Hit}
    (ht : InOrder run) (hc : l.NeverClears run)
    (hf : Forgets (countHit l.maxPerWindow l.window) Hit.bucket m (fun b => l.hits.lookup b) run) :
    l.answers run = Kit.Keyed.answers (countHit l.maxPerWindow l.window) Hit.bucket m run := by
  induction run generalizing l m with
  | nil => rfl
  | cons h run ih =>
    have htail := List.pairwise_cons.mp ht
    -- what the sweep drops is expired for this hit and for all later ones
    have hswept : Forgets (countHit l.maxPerWindow l.window) Hit.bucket m
        (fun b => (l.sweep h.now).lookup b) (h :: run) := by
      refine hf.lose fun b => ?_
      refine (sweep_lookup hc.1 b).imp id fun ⟨hnone, e, he, hexp⟩ => ⟨hnone, fun i hi _ => ?_⟩
      have hle : h.now ≤ i.now := by
        rcases List.mem_cons.mp hi with rfl | hi
        · exact Nat.le_refl _
        · exact htail.1 i hi
      have hexp' : l.window ≤ i.now - e.1 := by omega
      rw [he]
      simp only [countHit, counted_expired hexp', counted_none]
    have hstep : (fun b => (l.hit h.now h.key).2.hits.lookup b) =
        Kit.Keyed.next (countHit l.maxPerWindow l.window) Hit.bucket
          (fun b => (l.sweep h.now).lookup b) h := by
      funext b
      by_cases hb : b = h.bucket
      · subst hb
        rw [Kit.Keyed.next_self]
        exact l.hit_lookup_self h.now h.key
      · rw [Kit.Keyed.next_ne _ hb]
        exact l.hit_lookup_ne h.now hb
    have hanswer : (l.hit h.now h.key).1 =
        (countHit l.maxPerWindow l.window (m h.bucket) h).1 := by
      rw [← hswept.answer]
      rfl
    rw [answers, Kit.Keyed.answers, hanswer]
    congr 1
    refine ih htail.2 hc.2 ?_
    rw [hstep]
    exact hswept.step

/-- A map with one key at most is not cleared. -/
theorem neverClears_of_one {l : RateLimiter} {b : String} {run : List Hit}
    (hl : ∀ b' ∈ l.hits.keys, b' = b) (hb : ∀ h ∈ run, h.bucket = b) : l.NeverClears run := by
  induction run generalizing l with
  | nil => trivial
  | cons h run ih =>
    have hsub : l.hits.keys ⊆ [b] := fun b' hb' => List.mem_singleton.mpr (hl b' hb')
    have hone := (List.subperm_of_subset l.hits.keys_nodup hsub).length_le
    have hsmall : l.hits.keys.length ≤ 10000 := hone.trans (by simp)
    have hkept : l.kept h.now = l.hits := if_neg (Nat.not_lt.mpr hsmall)
    refine ⟨?_, ih ?_ fun i hi => hb i (List.mem_cons_of_mem _ hi)⟩
    · rw [Clears, hkept]
      exact Nat.not_lt.mpr hsmall
    · intro b' hb'
      rw [hit_eq, sweep_small hsmall, AList.keys_insert, List.mem_cons] at hb'
      rcases hb' with rfl | hb'
      · exact hb h List.mem_cons_self
      · exact hl b' (List.mem_of_mem_erase hb')

theorem answers_new_eq_ledger {maxPerWindow : UInt32} {window : Nat} {run : List Hit}
    (ht : InOrder run) (hc : (new maxPerWindow window).NeverClears run) :
    (new maxPerWindow window).answers run = ledger maxPerWindow window run := by
  refine answers_eq_ledger ht hc ?_
  have hempty : (fun b => (new maxPerWindow window).hits.lookup b) = fun _ => none := by
    funext b
    exact AList.lookup_empty b
  rw [hempty]
  exact Forgets.refl _ _ _ _

theorem bucket_of_mem_hitsOf {b : String} {run : List Hit} {h : Hit} (hh : h ∈ hitsOf b run) :
    h.bucket = b := of_decide_eq_true (List.mem_filter.mp hh).2

/-- The answers of a limiter that has seen no other bucket. -/
theorem answers_hitsOf {maxPerWindow : UInt32} {window : Nat} {run : List Hit} (ht : InOrder run)
    (b : String) : (new maxPerWindow window).answers (hitsOf b run) =
      cell (countHit maxPerWindow window) none (hitsOf b run) := by
  have hall : ∀ h ∈ hitsOf b run, h.bucket = b := fun h => bucket_of_mem_hitsOf
  have hclears : (new maxPerWindow window).NeverClears (hitsOf b run) :=
    neverClears_of_one (b := b) (fun b' hb' => by cases hb') hall
  have ht' : InOrder (hitsOf b run) := ht.filter _
  rw [answers_new_eq_ledger ht' hclears, ledger, Kit.Keyed.answers_eq_cell hall]

theorem answers_alone {maxPerWindow : UInt32} {window : Nat} {run : List Hit}
    (ht : InOrder run) (hc : (new maxPerWindow window).NeverClears run) (b : String) :
    answersTo b ((new maxPerWindow window).answers run) =
      (new maxPerWindow window).answers (hitsOf b run) := by
  rw [answers_new_eq_ledger ht hc, answers_hitsOf ht, answersTo, ledger,
    Kit.Keyed.answers_filter, hitsOf]

end RateLimiter

/-! ### One bucket -/

section Bucket

variable {maxPerWindow : UInt32} {window : Nat}

/-- The entry that stands for a slot, as long as the counter does not wrap. -/
def entryOf (s : Slot) : Nat × UInt32 := (s.start, UInt32.ofNat s.nth)

theorem counted_entryOf (last : Option Slot) (t : Nat) :
    counted window (last.map entryOf) t = entryOf (Kit.FixedWindow.next window last t) := by
  cases last with
  | none => rw [Option.map_none, counted_none]; rfl
  | some s =>
    rw [Option.map_some, Kit.FixedWindow.next]
    split
    · rename_i h
      rw [counted_expired h]
      rfl
    · rename_i h
      rw [counted_running h]
      simp only [entryOf, UInt32.ofNat_add]
      rfl

/-- The hits of one bucket that are let in are the first ones of each window. -/
theorem granted_cell {last : Option Slot} {run : List Hit}
    (hfew : ∀ a ∈ slots window last (run.map Hit.now), a.2.nth < 2 ^ 32) :
    granted (cell (countHit maxPerWindow window) (last.map entryOf) run) =
      ((slots window last (run.map Hit.now)).filter
        fun a => decide (a.2.nth ≤ maxPerWindow.toNat)).map Prod.fst := by
  induction run generalizing last with
  | nil => rfl
  | cons h run ih =>
    rw [List.map_cons, slots] at hfew
    have htail := @ih (some (Kit.FixedWindow.next window last h.now)) fun a ha =>
      hfew a (List.mem_cons_of_mem _ ha)
    have hlt := hfew _ List.mem_cons_self
    have hjudge : (countHit maxPerWindow window (last.map entryOf) h).1.isOk =
        decide ((Kit.FixedWindow.next window last h.now).nth ≤ maxPerWindow.toNat) := by
      rw [countHit, counted_entryOf, judge]
      have hiff : (entryOf (Kit.FixedWindow.next window last h.now)).2 ≤ maxPerWindow ↔
          (Kit.FixedWindow.next window last h.now).nth ≤ maxPerWindow.toNat := by
        rw [entryOf, UInt32.le_iff_toNat_le, UInt32.toNat_ofNat', Nat.mod_eq_of_lt hlt]
      split
      · rename_i hle
        exact (decide_eq_true (hiff.mp hle)).symm
      · rename_i hle
        exact (decide_eq_false fun h => hle (hiff.mpr h)).symm
    rw [List.map_cons, slots, cell, countHit, counted_entryOf]
    rw [countHit, counted_entryOf] at hjudge
    simp only [granted, List.filter_cons, hjudge] at htail ⊢
    split
    · rw [List.map_cons, List.map_cons, ← htail]
      rfl
    · rw [← htail]
      rfl

theorem granted_alone {run : List Hit} (ht : InOrder run) {b : String}
    (hfew : ∀ a ∈ windowsOf window b run, a.2.nth < 2 ^ 32) :
    granted ((RateLimiter.new maxPerWindow window).answers (hitsOf b run)) =
      ((windowsOf window b run).filter
        fun a => decide (a.2.nth ≤ maxPerWindow.toNat)).map Prod.fst := by
  rw [RateLimiter.answers_hitsOf ht]
  exact granted_cell (show ∀ a ∈ slots window none _, _ from hfew)

/-- A run of fewer than `2^32` hits has no more in a window. -/
theorem few_of_length {run : List Hit} (h : run.length < 2 ^ 32) (b : String) :
    ∀ a ∈ windowsOf window b run, a.2.nth < 2 ^ 32 := by
  intro a ha
  have hnth := Kit.FixedWindow.nth_le_of_mem ha
  have hlen : (hitsOf b run).length ≤ run.length := List.length_filter_le _ _
  rw [List.length_map, Option.elim_none] at hnth
  omega

theorem length_granted {run : List Hit} (ht : InOrder run) {b : String}
    (hfew : ∀ a ∈ windowsOf window b run, a.2.nth < 2 ^ 32) (p : Nat → Prop) [DecidablePred p] :
    ((granted ((RateLimiter.new maxPerWindow window).answers (hitsOf b run))).filter
        fun t => decide (p t)).length =
      ((windowsOf window b run).filter
        fun a => decide (p a.1 ∧ a.2.nth ≤ maxPerWindow.toNat)).length := by
  rw [granted_alone ht hfew, List.filter_map, List.length_map, List.filter_filter]
  simp only [Function.comp_apply, Bool.decide_and]

theorem instants_sorted {run : List Hit} (ht : InOrder run) (b : String) :
    ((hitsOf b run).map Hit.now).Pairwise (· ≤ ·) := by
  rw [List.pairwise_map]
  exact ht.filter _

theorem granted_in_window (hw : 0 < window) {run : List Hit} (ht : InOrder run) {b : String}
    (hfew : ∀ a ∈ windowsOf window b run, a.2.nth < 2 ^ 32) {a : Nat × Slot}
    (ha : a ∈ windowsOf window b run) :
    ((granted ((RateLimiter.new maxPerWindow window).answers (hitsOf b run))).filter
      fun t => decide (a.2.start ≤ t ∧ t < a.2.start + window)).length ≤ maxPerWindow.toNat := by
  rw [length_granted ht hfew]
  have := Kit.FixedWindow.length_window_le hw (instants_sorted ht b) ha maxPerWindow.toNat
  simpa only [windowsOf, and_assoc] using this

theorem granted_in_span (hw : 0 < window) {run : List Hit} (ht : InOrder run) {b : String}
    (hfew : ∀ a ∈ windowsOf window b run, a.2.nth < 2 ^ 32) (lo : Nat) :
    ((granted ((RateLimiter.new maxPerWindow window).answers (hitsOf b run))).filter
      fun t => decide (lo ≤ t ∧ t ≤ lo + window)).length ≤ 2 * maxPerWindow.toNat := by
  rw [length_granted ht hfew]
  have := Kit.FixedWindow.length_span_le hw (instants_sorted ht b) lo maxPerWindow.toNat
  simpa only [windowsOf, and_assoc] using this

end Bucket

/-- In every run the map stays within 10 001 entries. If it is never cleared, no drop can be told
from the answers: each bucket is answered as if it were alone, at most `maxPerWindow` times with
`Ok` in each of its windows, and at most twice that in any span as long as a window. -/
theorem isolated_and_capped {maxPerWindow : UInt32} {window : Nat} (hw : 0 < window)
    {run : List Hit} (ht : InOrder run)
    (hfew : ∀ b, ∀ a ∈ windowsOf window b run, a.2.nth < 2 ^ 32) :
    (∀ pre h, pre ++ [h] <+: run →
      ((RateLimiter.new maxPerWindow window).after (pre ++ [h])).hits.keys.length ≤ 10001) ∧
    ((RateLimiter.new maxPerWindow window).NeverClears run →
      (RateLimiter.new maxPerWindow window).answers run = ledger maxPerWindow window run ∧
      ∀ b,
        answersTo b ((RateLimiter.new maxPerWindow window).answers run) =
          (RateLimiter.new maxPerWindow window).answers (hitsOf b run) ∧
        (∀ a ∈ windowsOf window b run,
          ((granted (answersTo b ((RateLimiter.new maxPerWindow window).answers run))).filter
            fun t => decide (a.2.start ≤ t ∧ t < a.2.start + window)).length ≤
              maxPerWindow.toNat) ∧
        ∀ lo,
          ((granted (answersTo b ((RateLimiter.new maxPerWindow window).answers run))).filter
            fun t => decide (lo ≤ t ∧ t ≤ lo + window)).length ≤ 2 * maxPerWindow.toNat) := by
  constructor
  · intro pre h _
    rw [RateLimiter.after, List.foldl_append]
    exact hit_tracked _ h.now h.key
  · intro hc
    refine ⟨RateLimiter.answers_new_eq_ledger ht hc, fun b => ?_⟩
    rw [RateLimiter.answers_alone ht hc b]
    exact ⟨rfl, fun a ha => granted_in_window hw ht (hfew b) ha,
      granted_in_span hw ht (hfew b)⟩

/-- One hit a minute: two buckets, one of them refused and let in again. -/
def minuteRun : List Hit :=
  [⟨0, "203.0.113.7"⟩, ⟨1000000000, "198.51.100.2"⟩, ⟨59000000000, "203.0.113.7"⟩,
    ⟨61000000000, "203.0.113.7"⟩]

theorem isolated_and_capped_minute :
    ((granted (answersTo "203.0.113.7" ((RateLimiter.new 1 60000000000).answers minuteRun))).filter
      fun t => decide (5000000000 ≤ t ∧ t ≤ 5000000000 + 60000000000)).length ≤ 2 := by
  have ht : InOrder minuteRun := by
    unfold InOrder minuteRun
    decide
  have hfew : ∀ b, ∀ a ∈ windowsOf 60000000000 b minuteRun, a.2.nth < 2 ^ 32 := fun b =>
    few_of_length (by decide) b
  have hclears : (RateLimiter.new 1 60000000000).NeverClears minuteRun :=
    RateLimiter.neverClears_of_length (by decide)
  obtain ⟨-, hb⟩ := (@isolated_and_capped 1 60000000000 (by decide) minuteRun ht hfew).2 hclears
  exact (hb "203.0.113.7").2.2 5000000000

end Registry
end Nockmark
