import Nockmark.Registry.Limiter

/-!
# Registry.RetryAfter

What a refusal promises: `Retry-After` names whole seconds, and the window is left in nanoseconds.

* `Honest`: whoever comes back after that time is let in.
* `bucket_shared`: from 45 characters on, a key shares its counter.
* `refused_cases`: a refusal comes from an entry that is running and used up.
* `used_up`, `shared_refused`: another key of the counter can use it up again.
* `retry_honest_iff`: exactly when the promise is kept.
-/

namespace Nockmark
namespace Registry

namespace RateLimiter

/-- After the hit at `now` was told to come back in `secs` seconds, the next one of its key is let
in, at any later instant and whatever the other keys do until then. -/
def Honest (l : RateLimiter) (now : Nat) (key : String) (secs : Nat) : Prop :=
  ∀ (others : List Hit) (t : Nat), (∀ h ∈ others, h.key ≠ key) →
    (now :: others.map Hit.now ++ [t]).Pairwise (· ≤ ·) → now + secs * 10 ^ 9 ≤ t →
    (((l.hit now key).2.after others).hit t key).1 = .ok ()

/-- The entry `(start, count)` at a refused hit: the rest of its window is at most a second, or a
whole number of seconds; or this is the last hit before the counter wraps. -/
def WholeSeconds (window now : Nat) (entry : Nat × UInt32) : Prop :=
  entry.1 + window ≤ now + 10 ^ 9 ∨
    entry.1 ≤ now ∧ 10 ^ 9 ∣ entry.1 + window - now ∨ entry.2 + 2 = 0

/-! ### Keys that share a counter -/

theorem length_le_utf8ByteSize (s : String) : s.toList.length ≤ s.utf8ByteSize := by
  obtain ⟨cs, rfl⟩ : ∃ cs, s = String.ofList cs := ⟨s.toList, String.ofList_toList.symm⟩
  rw [String.toList_ofList, ← String.size_toByteArray, String.toByteArray_ofList, List.utf8Encode,
    List.size_toByteArray]
  induction cs with
  | nil => exact Nat.zero_le _
  | cons c cs ih =>
    rw [List.flatMap_cons, List.length_append, List.length_cons, String.length_utf8EncodeChar]
    have := c.utf8Size_pos
    omega

/-- A key of 45 characters or more is counted with the same key and one character more. -/
theorem bucket_shared {key : String} (h : 45 ≤ key.toList.length) :
    ∃ other, other ≠ key ∧ bucket other = bucket key := by
  refine ⟨key ++ "0", ?_, ?_⟩
  · intro heq
    have := congrArg (List.length ∘ String.toList) heq
    simp at this
  · have hsize := length_le_utf8ByteSize (key ++ "0")
    rw [String.toList_append, List.length_append] at hsize
    have hlong : 45 < (key ++ "0").utf8ByteSize := lt_of_lt_of_le (Nat.lt_succ_of_le h) hsize
    have hcut : bucket (key ++ "0") = String.ofList (key.toList.take 45) := by
      rw [bucket, if_pos hlong, String.toList_append, List.take_append_of_le_length h]
    rw [hcut, bucket]
    split
    · rfl
    · have := length_le_utf8ByteSize key
      rw [List.take_of_length_le (by omega), String.ofList_toList]

variable {l : RateLimiter} {now : Nat} {key : String} {secs : Nat}

/-! ### Refusals -/

/-- A hit is refused by an entry of its own that the sweep has left. -/
theorem refused_cases (hmax : 1 ≤ l.maxPerWindow) (h : (l.hit now key).1 = .error secs) :
    ∃ entry, l.hits.lookup (bucket key) = some entry ∧
      (l.sweep now).lookup (bucket key) = some entry ∧ now - entry.1 < l.window ∧
      l.entryAfter now key = (entry.1, entry.2 + 1) ∧ ¬ entry.2 + 1 ≤ l.maxPerWindow ∧
      secs = max ((l.window - (now - entry.1)) / 10 ^ 9) 1 := by
  rw [hit_eq, judge_eq_error] at h
  obtain ⟨hover, hsecs⟩ := h
  cases hl : (l.sweep now).lookup (bucket key) with
  | none =>
    rw [entryAfter, hl, counted_none] at hover
    exact absurd hmax hover
  | some entry =>
    by_cases hrun : l.window ≤ now - entry.1
    · rw [entryAfter, hl, counted_expired hrun] at hover
      exact absurd hmax hover
    · have hentry : l.entryAfter now key = (entry.1, entry.2 + 1) := by
        rw [entryAfter, hl, counted_running hrun]
      rw [hentry] at hover hsecs
      refine ⟨entry, ?_, rfl, Nat.not_le.mp hrun, hentry, hover, hsecs⟩
      rcases l.sweep_lookup_or now (bucket key) with heq | hnone
      · rw [← heq, hl]
      · rw [hnone] at hl
        cases hl

/-- A hit is let in when its bucket has no entry, an expired one, or one about to wrap. -/
theorem hit_ok (hmax : 1 ≤ l.maxPerWindow) (h : ∀ entry, l.hits.lookup (bucket key) = some entry →
    l.window ≤ now - entry.1 ∨ entry.2 + 1 = 0) : (l.hit now key).1 = .ok () := by
  rw [hit_eq, judge_eq_ok]
  rcases l.sweep_lookup_or now (bucket key) with heq | hnone
  · cases hl : l.hits.lookup (bucket key) with
    | none =>
      rw [entryAfter, heq, hl, counted_none]
      exact hmax
    | some entry =>
      rw [entryAfter, heq, hl]
      by_cases hrun : l.window ≤ now - entry.1
      · rw [counted_expired hrun]
        exact hmax
      · rw [counted_running hrun, ((h entry hl).resolve_left hrun)]
        exact UInt32.zero_le
  · rw [entryAfter, hnone, counted_none]
    exact hmax

/-- A hit in an entry that the sweep has left adds none. -/
theorem length_hit {entry : Nat × UInt32} (h : (l.sweep now).lookup (bucket key) = some entry) :
    (l.hit now key).2.hits.keys.length ≤ 10000 := by
  have hmem : bucket key ∈ (l.sweep now).keys :=
    AList.mem_keys.mp (AList.lookup_isSome.mp (by rw [h]; rfl))
  have hlen := List.length_erase_of_mem hmem
  have hpos := List.length_pos_of_mem hmem
  have hswept := l.length_sweep now
  rw [hit_eq, AList.keys_insert, List.length_cons]
  omega

/-- A refused hit leaves a map that the next hit does not sweep. -/
theorem length_of_refused (hmax : 1 ≤ l.maxPerWindow) (h : (l.hit now key).1 = .error secs) :
    (l.hit now key).2.hits.keys.length ≤ 10000 := by
  obtain ⟨entry, -, hl, -⟩ := refused_cases hmax h
  exact length_hit hl

/-- The wait is long enough exactly if it is a matter of whole seconds. -/
theorem waits_out_iff {window start now : Nat} (h : now - start < window) :
    start + window ≤ now + max ((window - (now - start)) / 10 ^ 9) 1 * 10 ^ 9 ↔
      start + window ≤ now + 10 ^ 9 ∨ start ≤ now ∧ 10 ^ 9 ∣ start + window - now := by
  by_cases hone : start + window ≤ now + 10 ^ 9
  · have : 1 * 10 ^ 9 ≤ max ((window - (now - start)) / 10 ^ 9) 1 * 10 ^ 9 :=
      Nat.mul_le_mul_right _ (Nat.le_max_right _ _)
    exact ⟨fun _ => .inl hone, fun _ => by omega⟩
  · constructor
    · intro hle
      refine .inr ?_
      omega
    · intro hor
      obtain ⟨hstart, hdvd⟩ := hor.resolve_left hone
      have hrem : window - (now - start) = start + window - now := by omega
      have hge : (start + window - now) / 10 ^ 9 * 10 ^ 9 = start + window - now :=
        Nat.div_mul_cancel hdvd
      have : (window - (now - start)) / 10 ^ 9 * 10 ^ 9 ≤
          max ((window - (now - start)) / 10 ^ 9) 1 * 10 ^ 9 :=
        Nat.mul_le_mul_right _ (Nat.le_max_left _ _)
      rw [hrem] at this ⊢
      omega

/-- Until its window has run out, a used-up entry refuses whoever comes back. -/
theorem refused_again (hmax : 1 ≤ l.maxPerWindow) (h : (l.hit now key).1 = .error secs)
    {entry : Nat × UInt32} (hl : l.hits.lookup (bucket key) = some entry)
    (hwrap : ¬ entry.2 + 2 = 0) {t : Nat} (ht : t - entry.1 < l.window) :
    ((l.hit now key).2.hit t key).1 ≠ .ok () := by
  obtain ⟨entry', hl', -, -, hentry, hover, -⟩ := refused_cases hmax h
  obtain rfl : entry = entry' := Option.some.inj (hl.symm.trans hl')
  have hsweep : (l.hit now key).2.sweep t = (l.hit now key).2.hits :=
    sweep_small (length_of_refused hmax h)
  have hrun : counted l.window (some (entry.1, entry.2 + 1)) t = (entry.1, entry.2 + 1 + 1) :=
    counted_running (Nat.not_le.mpr ht)
  rw [hit_eq, Ne, judge_eq_ok, entryAfter, hsweep, hit_lookup_self, hentry, hit_window,
    hrun]
  rw [UInt32.le_iff_toNat_le] at hover ⊢
  rw [← UInt32.toNat_inj] at hwrap
  have hc := entry.2.toNat_lt
  simp only [hit_maxPerWindow, UInt32.toNat_add, UInt32.toNat_ofNat] at hover hwrap ⊢
  omega

/-- The hits of one instant count up in an entry that is running. -/
theorem after_replicate {t start : Nat} {count : UInt32} {other : String}
    (hl : l.hits.keys.length ≤ 10000)
    (he : l.hits.lookup (bucket other) = some (start, count)) (hrun : t - start < l.window)
    (n : Nat) :
    (l.after (List.replicate n ⟨t, other⟩)).hits.lookup (bucket other) =
        some (start, count + UInt32.ofNat n) ∧
      (l.after (List.replicate n ⟨t, other⟩)).hits.keys.length ≤ 10000 := by
  induction n generalizing l count with
  | zero =>
    refine ⟨?_, hl⟩
    rw [show UInt32.ofNat 0 = 0 from rfl, UInt32.add_zero]
    exact he
  | succ n ih =>
    have hswept : (l.sweep t).lookup (bucket other) = some (start, count) := by
      rw [sweep_small hl, he]
    have hentry : l.entryAfter t other = (start, count + 1) := by
      rw [entryAfter, hswept, counted_running (Nat.not_le.mpr hrun)]
    have hself := hit_lookup_self l t other
    rw [hentry] at hself
    have hnext := ih (length_hit hswept) hself hrun
    rw [List.replicate_succ, after_cons, hnext.1]
    refine ⟨?_, hnext.2⟩
    rw [UInt32.add_assoc, UInt32.ofNat_add, UInt32.add_comm (UInt32.ofNat n)]
    rfl

/-- Hits of one instant that use an entry up leave nothing for another key of its counter, as no
counter can wrap at `maxPerWindow`. -/
theorem used_up {t start : Nat} {count : UInt32} {other : String}
    (hl : l.hits.keys.length ≤ 10000)
    (he : l.hits.lookup (bucket other) = some (start, count)) (hrun : t - start < l.window)
    (htop : l.maxPerWindow.toNat + 1 < 2 ^ 32) (hb : bucket other = bucket key) :
    ((l.after (List.replicate (l.maxPerWindow - count).toNat ⟨t, other⟩)).hit t key).1 ≠
      .ok () := by
  obtain ⟨hfull, hsmall⟩ := after_replicate hl he hrun (l.maxPerWindow - count).toNat
  rw [UInt32.ofNat_toNat, hb, show count + (l.maxPerWindow - count) = l.maxPerWindow by grind]
    at hfull
  rw [hit_eq, Ne, judge_eq_ok, entryAfter, sweep_small hsmall, hfull, after_window,
    counted_running (Nat.not_le.mpr hrun), after_maxPerWindow, UInt32.le_iff_toNat_le,
    UInt32.toNat_add]
  show ¬ (l.maxPerWindow.toNat + 1) % 2 ^ 32 ≤ l.maxPerWindow.toNat
  rw [Nat.mod_eq_of_lt htop]
  omega

/-- Another key of the same counter can use it up before the key comes back. -/
theorem shared_refused (hmax : 1 ≤ l.maxPerWindow) (h : (l.hit now key).1 = .error secs)
    {other : String} (hb : bucket other = bucket key) (t : Nat) :
    ∃ n, (((l.hit now key).2.after (List.replicate n ⟨t, other⟩)).hit t key).1 ≠ .ok () := by
  obtain ⟨entry, -, -, hopen, hentry, hover, -⟩ := refused_cases hmax h
  have hlen := length_of_refused hmax h
  have he := hit_lookup_self l now key
  rw [hentry, ← hb] at he
  have htop : (l.hit now key).2.maxPerWindow.toNat + 1 < 2 ^ 32 := by
    rw [UInt32.le_iff_toNat_le] at hover
    have := (entry.2 + 1).toNat_lt
    rw [hit_maxPerWindow]
    omega
  by_cases hrun : t - entry.1 < (l.hit now key).2.window
  · exact ⟨_, used_up hlen he hrun htop hb⟩
  · -- the window has run out by then, and the first of these hits opens the next
    have hswept : ((l.hit now key).2.sweep t).lookup (bucket other) =
        some (entry.1, entry.2 + 1) := by rw [sweep_small hlen, he]
    have hnew : (l.hit now key).2.entryAfter t other = (t, 1) := by
      rw [entryAfter, hswept]
      exact counted_expired (Nat.not_lt.mp hrun)
    have hself := hit_lookup_self (l.hit now key).2 t other
    rw [hnew] at hself
    have hstarts : t - t < ((l.hit now key).2.hit t other).2.window := by
      rw [hit_window, hit_window]
      omega
    refine ⟨(((l.hit now key).2.hit t other).2.maxPerWindow - 1).toNat + 1, ?_⟩
    rw [List.replicate_succ, after_cons]
    exact used_up (length_hit hswept) hself hstarts (by rwa [hit_maxPerWindow]) hb

theorem waited_out (hmax : 1 ≤ l.maxPerWindow) (h : (l.hit now key).1 = .error secs)
    (hkey : key.toList.length < 45) {entry : Nat × UInt32}
    (hl : l.hits.lookup (bucket key) = some entry)
    (hw : entry.1 + l.window ≤ now + secs * 10 ^ 9 ∨ entry.2 + 2 = 0) :
    l.Honest now key secs := by
  intro others t hothers _ ht
  have hne : ∀ i ∈ others, i.bucket ≠ bucket key := fun i hi hb =>
    hothers i hi (bucket_unshared hkey hb)
  obtain ⟨entry', hl', -, -, hentry, -, -⟩ := refused_cases hmax h
  obtain rfl : entry = entry' := Option.some.inj (hl.symm.trans hl')
  refine hit_ok (by simpa using hmax) ?_
  intro e he
  rcases (l.hit now key).2.after_lookup_or hne with heq | hnone
  · rw [heq, hit_lookup_self, hentry] at he
    obtain rfl := Option.some.inj he
    simp only [after_window, hit_window]
    rcases hw with hw | hwrap
    · left
      omega
    · right
      rw [← hwrap, UInt32.add_assoc]
      rfl
  · rw [hnone] at he
    cases he

/-- For every state, key and instant, and every refusal: the client is let in after the time it
was told if and only if no other key shares its counter, as it has fewer than 45 characters, and
the rest of the window is at most a second or a whole number of seconds (or the counter is about
to wrap). -/
theorem retry_honest_iff (hmax : 1 ≤ l.maxPerWindow) (h : (l.hit now key).1 = .error secs) :
    l.Honest now key secs ↔ key.toList.length < 45 ∧
      ∃ entry, l.hits.lookup (bucket key) = some entry ∧ WholeSeconds l.window now entry := by
  obtain ⟨entry, hl, -, hrun, -, -, hsecs⟩ := refused_cases hmax h
  have hiff := waits_out_iff hrun
  rw [← hsecs] at hiff
  constructor
  · intro hhonest
    constructor
    · by_contra hlong
      obtain ⟨other, hne, hb⟩ := bucket_shared (Nat.not_lt.mp hlong)
      obtain ⟨n, hrefused⟩ := shared_refused hmax h hb (now + secs * 10 ^ 9)
      refine hrefused (hhonest _ _ ?_ ?_ (Nat.le_refl _))
      · intro i hi
        rw [List.eq_of_mem_replicate hi]
        exact hne
      · rw [List.map_replicate, List.cons_append, ← List.replicate_succ', List.pairwise_cons]
        refine ⟨fun u hu => ?_, List.pairwise_replicate_of_refl⟩
        rw [List.eq_of_mem_replicate hu]
        exact Nat.le_add_right _ _
    · refine ⟨entry, hl, ?_⟩
      by_contra hno
      simp only [WholeSeconds, not_or] at hno
      have hearly : ¬ entry.1 + l.window ≤ now + secs * 10 ^ 9 := fun hle =>
        (hiff.mp hle).elim hno.1 hno.2.1
      refine refused_again hmax h hl hno.2.2 (t := now + secs * 10 ^ 9) (by omega) ?_
      exact hhonest [] (now + secs * 10 ^ 9) (by simp) (by simp) (Nat.le_refl _)
  · rintro ⟨hkey, entry', hl', hwhole⟩
    obtain rfl : entry = entry' := Option.some.inj (hl.symm.trans hl')
    refine waited_out hmax h hkey hl ?_
    rcases hwhole with hone | hdvd | hwrap
    · exact .inl (hiff.mpr (.inl hone))
    · exact .inl (hiff.mpr (.inr hdvd))
    · exact .inr hwrap

/-- One hit a minute, and a client that has had it, at the instant 0. -/
def usedUp : RateLimiter := ((new 1 60000000000).hit 0 "203.0.113.7").2

theorem retry_honest_iff_atOnce : usedUp.Honest 0 "203.0.113.7" 60 := by
  rw [retry_honest_iff (by decide) rfl]
  exact ⟨by decide, (0, 1), rfl, .inr (.inl ⟨by decide, by decide⟩)⟩

/-- Half a second into the minute the client is told 59 seconds, which is half a second short. -/
theorem told_too_early :
    ¬ ∀ (l : RateLimiter) (now : Nat) (key : String) (secs : Nat), 1 ≤ l.maxPerWindow →
      (l.hit now key).1 = .error secs → l.Honest now key secs := by
  intro hall
  have hhonest := hall usedUp 500000000 "203.0.113.7" 59 (by decide) rfl
  have hok := hhonest [] 59500000000 (by simp) (by simp) (by decide)
  cases hok

end RateLimiter

end Registry
end Nockmark
