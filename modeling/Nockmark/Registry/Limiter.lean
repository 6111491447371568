import Nockmark.Kit.Keyed
import Nockmark.Registry.RateLimit

/-!
# Registry.Limiter

Runs of the limiter: hits one after the other, each at its instant.

A hit counts in the entry of its bucket (`counted`) and is judged by it (`judge`). Before that the
limiter sweeps: past 10 000 entries it drops the expired ones, and clears the map if that was not
enough.

* `hit_eq`: a hit is a sweep and one step of its bucket's entry.
* `sweep_lookup`: a sweep that does not clear drops expired entries only.
* `counted_expired`: an expired entry counts like one that is not there.
-/

namespace Nockmark
namespace Registry

structure Hit where
  now : Nat
  key : String

def Hit.bucket (h : Hit) : String := Registry.bucket h.key

/-- The entry after a hit: it opens a window if there is none, or if that one has run out. -/
def counted (window : Nat) (entry : Option (Nat × UInt32)) (now : Nat) : Nat × UInt32 :=
  let entry := entry.getD (now, 0)
  let entry := if window ≤ now - entry.1 then (now, 0) else entry
  (entry.1, entry.2 + 1)

def judge (maxPerWindow : UInt32) (window : Nat) (entry : Nat × UInt32) (now : Nat) :
    Except Nat Unit :=
  if entry.2 ≤ maxPerWindow then .ok ()
  else .error (max ((window - (now - entry.1)) / 10 ^ 9) 1)

theorem counted_none (window now : Nat) : counted window none now = (now, 1) := by
  simp [counted]

theorem counted_expired {window now : Nat} {entry : Nat × UInt32} (h : window ≤ now - entry.1) :
    counted window (some entry) now = (now, 1) := by
  simp [counted, h]

theorem counted_running {window now : Nat} {entry : Nat × UInt32}
    (h : ¬ window ≤ now - entry.1) :
    counted window (some entry) now = (entry.1, entry.2 + 1) := by
  simp [counted, h]

theorem judge_eq_ok {maxPerWindow : UInt32} {window now : Nat} {entry : Nat × UInt32} :
    judge maxPerWindow window entry now = .ok () ↔ entry.2 ≤ maxPerWindow := by
  unfold judge
  split <;> simp [*]

theorem judge_isOk {maxPerWindow : UInt32} {window now : Nat} {entry : Nat × UInt32} :
    (judge maxPerWindow window entry now).isOk ↔ entry.2 ≤ maxPerWindow := by
  unfold judge
  split <;> simp [*, Except.isOk, Except.toBool]

theorem judge_eq_error {maxPerWindow : UInt32} {window now secs : Nat} {entry : Nat × UInt32} :
    judge maxPerWindow window entry now = .error secs ↔
      ¬ entry.2 ≤ maxPerWindow ∧ secs = max ((window - (now - entry.1)) / 10 ^ 9) 1 := by
  unfold judge
  split
  · simp [*]
  · simp [*, eq_comm]

/-! ### Sweeping -/

/-- What the first of the two sweeps leaves. -/
def RateLimiter.kept (l : RateLimiter) (now : Nat) : AList fun _ : String => Nat × UInt32 :=
  if 10000 < l.hits.keys.length then retain (fun e => now - e.1 < l.window) l.hits else l.hits

/-- A hit at this instant takes the clear-all branch. -/
def RateLimiter.Clears (l : RateLimiter) (now : Nat) : Prop := 10000 < (l.kept now).keys.length

theorem lookup_retain (p : Nat × UInt32 → Bool) (hits : AList fun _ : String => Nat × UInt32)
    (b : String) : (retain p hits).lookup b = (hits.lookup b).filter p := by
  ext e
  rw [← Option.mem_def, AList.mem_lookup_iff, retain, List.mem_filter, ← AList.mem_lookup_iff,
    Option.mem_def, Option.filter_eq_some_iff]

namespace RateLimiter

variable {l : RateLimiter} {now : Nat}

theorem sweep_of_clears (h : l.Clears now) : l.sweep now = ∅ := if_pos h

theorem sweep_of_not_clears (h : ¬ l.Clears now) : l.sweep now = l.kept now := if_neg h

theorem sweep_small (h : l.hits.keys.length ≤ 10000) : l.sweep now = l.hits := by
  have hkept : l.kept now = l.hits := if_neg (Nat.not_lt.mpr h)
  rw [sweep_of_not_clears, hkept]
  rw [Clears, hkept]
  exact Nat.not_lt.mpr h

theorem length_sweep (l : RateLimiter) (now : Nat) : (l.sweep now).keys.length ≤ 10000 := by
  by_cases h : l.Clears now
  · rw [sweep_of_clears h, AList.keys_empty]
    exact Nat.zero_le _
  · rw [sweep_of_not_clears h]
    exact Nat.not_lt.mp h

theorem kept_lookup (l : RateLimiter) (now : Nat) (b : String) :
    (l.kept now).lookup b = l.hits.lookup b ∨
      (l.kept now).lookup b = none ∧ ∃ e, l.hits.lookup b = some e ∧ l.window ≤ now - e.1 := by
  unfold kept
  split
  · rw [lookup_retain]
    cases hl : l.hits.lookup b with
    | none => exact .inl rfl
    | some e =>
      by_cases he : now - e.1 < l.window
      · exact .inl (by simp [he])
      · exact .inr ⟨by simpa using Nat.not_lt.mp he, e, rfl, Nat.not_lt.mp he⟩
  · exact .inl rfl

/-- Without a clear, only expired entries are dropped. -/
theorem sweep_lookup (h : ¬ l.Clears now) (b : String) :
    (l.sweep now).lookup b = l.hits.lookup b ∨
      (l.sweep now).lookup b = none ∧ ∃ e, l.hits.lookup b = some e ∧ l.window ≤ now - e.1 := by
  rw [sweep_of_not_clears h]
  exact l.kept_lookup now b

/-- At worst, a sweep forgets an entry. -/
theorem sweep_lookup_or (l : RateLimiter) (now : Nat) (b : String) :
    (l.sweep now).lookup b = l.hits.lookup b ∨ (l.sweep now).lookup b = none := by
  by_cases h : l.Clears now
  · rw [sweep_of_clears h]
    exact .inr (AList.lookup_empty b)
  · exact (sweep_lookup h b).imp id And.left

/-! ### Hits -/

/-- The entry of the hit's bucket, after the hit. -/
def entryAfter (l : RateLimiter) (now : Nat) (key : String) : Nat × UInt32 :=
  counted l.window ((l.sweep now).lookup (bucket key)) now

theorem hit_eq (l : RateLimiter) (now : Nat) (key : String) :
    l.hit now key = (judge l.maxPerWindow l.window (l.entryAfter now key) now,
      { l with hits := (l.sweep now).insert (bucket key) (l.entryAfter now key) }) := rfl

theorem hit_lookup_self (l : RateLimiter) (now : Nat) (key : String) :
    (l.hit now key).2.hits.lookup (bucket key) = some (l.entryAfter now key) :=
  AList.lookup_insert _

theorem hit_lookup_ne (l : RateLimiter) (now : Nat) {key b : String} (h : b ≠ bucket key) :
    (l.hit now key).2.hits.lookup b = (l.sweep now).lookup b := AList.lookup_insert_ne h

@[simp] theorem hit_window (l : RateLimiter) (now : Nat) (key : String) :
    (l.hit now key).2.window = l.window := rfl

@[simp] theorem hit_maxPerWindow (l : RateLimiter) (now : Nat) (key : String) :
    (l.hit now key).2.maxPerWindow = l.maxPerWindow := rfl

/-! ### Runs -/

def after (l : RateLimiter) (run : List Hit) : RateLimiter :=
  run.foldl (fun l h => (l.hit h.now h.key).2) l

/-- Each hit with its answer. -/
def answers (l : RateLimiter) : List Hit → List (Hit × Except Nat Unit)
  | [] => []
  | h :: run => (h, (l.hit h.now h.key).1) :: answers (l.hit h.now h.key).2 run

/-- No hit takes the clear-all branch. -/
def NeverClears (l : RateLimiter) : List Hit → Prop
  | [] => True
  | h :: run => ¬ l.Clears h.now ∧ NeverClears (l.hit h.now h.key).2 run

@[simp] theorem after_cons (l : RateLimiter) (h : Hit) (run : List Hit) :
    l.after (h :: run) = (l.hit h.now h.key).2.after run := rfl

@[simp] theorem after_window (l : RateLimiter) (run : List Hit) :
    (l.after run).window = l.window := by
  induction run generalizing l with
  | nil => rfl
  | cons h run ih => rw [after_cons, ih, hit_window]

@[simp] theorem after_maxPerWindow (l : RateLimiter) (run : List Hit) :
    (l.after run).maxPerWindow = l.maxPerWindow := by
  induction run generalizing l with
  | nil => rfl
  | cons h run ih => rw [after_cons, ih, hit_maxPerWindow]

/-- The hits of other buckets leave an entry as it is, or drop it. -/
theorem after_lookup_or (l : RateLimiter) {run : List Hit} {b : String}
    (h : ∀ i ∈ run, i.bucket ≠ b) :
    (l.after run).hits.lookup b = l.hits.lookup b ∨ (l.after run).hits.lookup b = none := by
  induction run generalizing l with
  | nil => exact .inl rfl
  | cons i run ih =>
    have hne : b ≠ bucket i.key := (h i List.mem_cons_self).symm
    have htail := ih (l.hit i.now i.key).2 fun j hj => h j (List.mem_cons_of_mem _ hj)
    rw [hit_lookup_ne l i.now hne] at htail
    rcases htail with heq | hnone
    · rw [after_cons, heq]
      exact l.sweep_lookup_or i.now b
    · exact .inr hnone

/-- A run of too few hits to fill the map never clears it. -/
theorem neverClears_of_length {l : RateLimiter} {run : List Hit}
    (h : l.hits.keys.length + run.length ≤ 10001) : l.NeverClears run := by
  induction run generalizing l with
  | nil => trivial
  | cons i run ih =>
    rw [List.length_cons] at h
    have hsmall : l.hits.keys.length ≤ 10000 := by omega
    have hkept : l.kept i.now = l.hits := if_neg (Nat.not_lt.mpr hsmall)
    refine ⟨?_, ih ?_⟩
    · rw [Clears, hkept]
      exact Nat.not_lt.mpr hsmall
    · have := (List.erase_sublist (a := bucket i.key) (l := l.hits.keys)).length_le
      rw [hit_eq, sweep_small hsmall, AList.keys_insert, List.length_cons]
      omega

end RateLimiter

end Registry
end Nockmark
