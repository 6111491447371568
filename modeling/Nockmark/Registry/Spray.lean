import Nockmark.Kit.Phases
import Nockmark.Registry.Isolation

/-!
# Registry.Spray

How much a key is let in within one window, when others spray keys to have the map cleared.

While no window runs out, the map is cleared by the hit that finds 10 001 entries in it. Between
two clears an entry counts the hits of its bucket, so a bucket is let in afresh in every phase of
the run that has 10 001 distinct buckets.

* `granted_phases`: how often a bucket is let in, phase by phase.
* `doubles_iff`: when that is at most twice the allowance.
* `third_allowance`: two sprays get a key in a third time.
-/

namespace Nockmark
namespace Registry

open Kit.Phases (phases)

/-- How many of a counter's first `n` values are within the allowance; it wraps at `2^32`. -/
def allowed (maxPerWindow : UInt32) (n : Nat) : Nat :=
  Nat.count (fun i => UInt32.ofNat (i + 1) ≤ maxPerWindow) n

/-- All hits lie within less than one window. -/
def WithinWindow (window : Nat) (run : List Hit) : Prop :=
  ∃ first, ∀ h ∈ run, first ≤ h.now ∧ h.now < first + window

/-- The map holds one entry for each bucket of `cur`, with its hits counted from `first` on. -/
structure CountsPhase (first : Nat) (cur : List String)
    (hits : AList fun _ : String => Nat × UInt32) : Prop where
  mem : ∀ b, b ∈ hits.keys ↔ b ∈ cur
  entry : ∀ b e, hits.lookup b = some e → first ≤ e.1 ∧ e.2 = UInt32.ofNat (cur.count b)

theorem allowed_eq_min {maxPerWindow : UInt32} {n : Nat} (h : n < 2 ^ 32) :
    allowed maxPerWindow n = min n maxPerWindow.toNat := by
  induction n with
  | zero => simp [allowed]
  | succ n ih =>
    have hiff : UInt32.ofNat (n + 1) ≤ maxPerWindow ↔ n + 1 ≤ maxPerWindow.toNat := by
      rw [UInt32.le_iff_toNat_le, UInt32.toNat_ofNat', Nat.mod_eq_of_lt h]
    have := ih (by omega)
    unfold allowed at this ⊢
    rw [Nat.count_succ, this]
    by_cases hle : n + 1 ≤ maxPerWindow.toNat
    · rw [if_pos (hiff.mpr hle)]
      omega
    · rw [if_neg fun h => hle (hiff.mp h)]
      omega

/-! ### A phase -/

section Phase

variable {first window now : Nat} {cur : List String}
  {hits : AList fun _ : String => Nat × UInt32}

theorem countsPhase_empty (first : Nat) : CountsPhase first [] ∅ where
  mem b := by simp
  entry b e he := by
    rw [AList.lookup_empty] at he
    cases he

theorem CountsPhase.length_keys (hc : CountsPhase first cur hits) :
    hits.keys.length = cur.dedup.length := by
  apply List.Perm.length_eq
  rw [List.perm_ext_iff_of_nodup hits.keys_nodup cur.nodup_dedup]
  intro b
  rw [List.mem_dedup, hc.mem]

/-- Within the window, a hit counts one more. -/
theorem CountsPhase.counted (hc : CountsPhase first cur hits) (b : String)
    (ht : first ≤ now ∧ now < first + window) :
    first ≤ (counted window (hits.lookup b) now).1 ∧
      (Registry.counted window (hits.lookup b) now).2 = UInt32.ofNat (cur.count b + 1) := by
  cases hl : hits.lookup b with
  | none =>
    have hnot : b ∉ cur := fun h => by
      have := AList.lookup_isSome.mpr (AList.mem_keys.mpr ((hc.mem b).mpr h))
      rw [hl] at this
      cases this
    rw [counted_none, List.count_eq_zero_of_not_mem hnot]
    exact ⟨ht.1, rfl⟩
  | some e =>
    obtain ⟨hstart, hcount⟩ := hc.entry b e hl
    rw [counted_running (by omega), hcount, UInt32.ofNat_add]
    exact ⟨hstart, rfl⟩

theorem CountsPhase.insert (hc : CountsPhase first cur hits) (b : String)
    (ht : first ≤ now ∧ now < first + window) :
    CountsPhase first (cur ++ [b])
      (hits.insert b (Registry.counted window (hits.lookup b) now)) where
  mem b' := by
    rw [AList.mem_keys.symm, AList.mem_insert, AList.mem_keys, hc.mem, List.mem_append,
      List.mem_singleton, or_comm]
  entry b' e he := by
    by_cases hb : b' = b
    · subst hb
      rw [AList.lookup_insert] at he
      obtain rfl := Option.some.inj he
      rw [List.count_append, List.count_singleton_self]
      exact hc.counted b' ht
    · rw [AList.lookup_insert_ne hb] at he
      rw [List.count_append, List.count_singleton, if_neg (by simpa using Ne.symm hb), Nat.add_zero]
      exact hc.entry b' e he

end Phase

namespace RateLimiter

variable {l : RateLimiter} {first now : Nat} {cur : List String}

theorem retain_eq_self {p : Nat × UInt32 → Bool} {hits : AList fun _ : String => Nat × UInt32}
    (h : ∀ b e, hits.lookup b = some e → p e = true) : retain p hits = hits := by
  apply AList.ext
  rw [retain, List.filter_eq_self]
  rintro ⟨b, e⟩ hmem
  exact h b e (AList.mem_lookup_iff.mpr hmem)

/-- Nothing has expired, so the first sweep drops nothing. -/
theorem kept_eq (hc : CountsPhase first cur l.hits)
    (ht : first ≤ now ∧ now < first + l.window) :
    l.kept now = l.hits := by
  unfold kept
  split
  · apply retain_eq_self
    intro b e he
    have hstart := (hc.entry b e he).1
    exact decide_eq_true (by omega)
  · rfl

theorem clears_iff (hc : CountsPhase first cur l.hits)
    (ht : first ≤ now ∧ now < first + l.window) :
    l.Clears now ↔ 10001 ≤ cur.dedup.length := by
  rw [Clears, kept_eq hc ht, hc.length_keys]
  exact Nat.lt_iff_add_one_le

/-- The phase in which the hit is counted, before it. -/
def phaseAt (cur : List String) : List String := if 10001 ≤ cur.dedup.length then [] else cur

theorem countsPhase_sweep (hc : CountsPhase first cur l.hits)
    (ht : first ≤ now ∧ now < first + l.window) :
    CountsPhase first (phaseAt cur) (l.sweep now) := by
  unfold phaseAt
  split
  · rename_i hfull
    rw [sweep_of_clears ((clears_iff hc ht).mpr hfull)]
    exact countsPhase_empty first
  · rename_i hshort
    rw [sweep_of_not_clears (fun hclear => hshort ((clears_iff hc ht).mp hclear)), kept_eq hc ht]
    exact hc

/-- One hit: the counter of its bucket goes up by one in the phase. -/
theorem countsPhase_hit (hc : CountsPhase first cur l.hits) {h : Hit}
    (ht : first ≤ h.now ∧ h.now < first + l.window) :
    CountsPhase first (phaseAt cur ++ [h.bucket]) (l.hit h.now h.key).2.hits ∧
      ((l.hit h.now h.key).1.isOk ↔
        UInt32.ofNat ((phaseAt cur).count h.bucket + 1) ≤ l.maxPerWindow) := by
  have hswept := countsPhase_sweep hc ht
  refine ⟨hswept.insert h.bucket ht, ?_⟩
  have hcount := (hswept.counted h.bucket ht).2
  rw [← hcount, hit_eq]
  exact judge_isOk

end RateLimiter

/-! ### Whole runs -/

/-- How often a bucket's hits in the phases of a run are within the allowance. -/
def allowedIn (maxPerWindow : UInt32) (b : String) (blocks : List (List String)) : Nat :=
  (blocks.map fun block => allowed maxPerWindow (block.count b)).sum

theorem granted_cons (b : String) (h : Hit) (r : Except Nat Unit)
    (as : List (Hit × Except Nat Unit)) :
    (granted (answersTo b ((h, r) :: as))).length =
      (if h.bucket = b ∧ r.isOk then 1 else 0) + (granted (answersTo b as)).length := by
  by_cases hb : h.bucket = b <;> by_cases hok : r.isOk <;>
    simp [granted, answersTo, hb, hok, Nat.add_comm]

/-- Phase by phase: what a bucket has been granted before in the first phase counts there. -/
theorem granted_phases {first : Nat} {run : List Hit} (b : String) :
    ∀ {l : RateLimiter} {cur : List String}, CountsPhase first cur l.hits →
      (∀ h ∈ run, first ≤ h.now ∧ h.now < first + l.window) →
      (granted (answersTo b (l.answers run))).length + allowed l.maxPerWindow (cur.count b) =
        allowedIn l.maxPerWindow b (phases 10001 cur (run.map Hit.bucket)) := by
  induction run with
  | nil =>
    intro l cur _ _
    simp [RateLimiter.answers, answersTo, granted, phases, allowedIn]
  | cons h run ih =>
    intro l cur hc ht
    obtain ⟨hc', hok⟩ := RateLimiter.countsPhase_hit hc (ht h List.mem_cons_self)
    have htail := ih hc' fun i hi => ht i (List.mem_cons_of_mem _ hi)
    rw [RateLimiter.hit_maxPerWindow] at htail
    have hstep : allowed l.maxPerWindow ((RateLimiter.phaseAt cur ++ [h.bucket]).count b) =
        (if h.bucket = b ∧ (l.hit h.now h.key).1.isOk then 1 else 0) +
          allowed l.maxPerWindow ((RateLimiter.phaseAt cur).count b) := by
      rw [List.count_append, List.count_singleton]
      by_cases hb : h.bucket = b
      · subst hb
        rw [if_pos (beq_self_eq_true _), allowed, Nat.count_succ, Nat.add_comm]
        congr 1
        simp only [hok, true_and]
      · rw [if_neg (by simpa using hb), if_neg fun h => hb h.1, Nat.add_zero, Nat.zero_add]
    rw [RateLimiter.answers, granted_cons, List.map_cons]
    unfold RateLimiter.phaseAt at htail hstep
    split at htail
    · rename_i hfull
      rw [if_pos hfull] at hstep
      rw [Kit.Phases.phases_full hfull, allowedIn, List.map_cons, List.sum_cons]
      rw [List.nil_append] at htail hstep
      rw [allowedIn] at htail
      have hzero : allowed l.maxPerWindow (([] : List String).count b) = 0 := rfl
      omega
    · rename_i hshort
      rw [if_neg hshort] at hstep
      rw [Kit.Phases.phases_short hshort, ← htail]
      omega

theorem granted_new {maxPerWindow : UInt32} {window : Nat} {run : List Hit}
    (hspan : WithinWindow window run) (b : String) :
    (granted (answersTo b ((RateLimiter.new maxPerWindow window).answers run))).length =
      allowedIn maxPerWindow b (phases 10001 [] (run.map Hit.bucket)) := by
  obtain ⟨first, ht⟩ := hspan
  exact granted_phases (l := .new maxPerWindow window) b (countsPhase_empty first) ht

/-- Twice the allowance, for every bucket of the run. -/
def AtMostDoubled (maxPerWindow : UInt32) (window : Nat) (run : List Hit) : Prop :=
  ∀ b, (granted (answersTo b ((RateLimiter.new maxPerWindow window).answers run))).length ≤
    2 * maxPerWindow.toNat

/-- For every run within a window: no bucket is let in more than twice its allowance if and only
if its hits in the phases of 10 001 distinct buckets, in each as far as the counter allows, are no
more than that. -/
theorem doubles_iff {maxPerWindow : UInt32} {window : Nat} {run : List Hit}
    (hspan : WithinWindow window run) :
    AtMostDoubled maxPerWindow window run ↔
      ∀ b, allowedIn maxPerWindow b (phases 10001 [] (run.map Hit.bucket)) ≤
        2 * maxPerWindow.toNat := by
  simp only [AtMostDoubled, granted_new hspan]

/-- Two hits of one key, a second apart. -/
def twoHits : List Hit := [⟨0, "203.0.113.7"⟩, ⟨1000000000, "203.0.113.7"⟩]

theorem doubles_iff_twoHits : AtMostDoubled 1 60000000000 twoHits := by
  have hspan : WithinWindow 60000000000 twoHits := ⟨0, by unfold twoHits; simp⟩
  rw [doubles_iff hspan]
  intro b
  have hphases : phases 10001 [] (twoHits.map Hit.bucket) =
      [["203.0.113.7", "203.0.113.7"]] := by decide
  have hcount : ["203.0.113.7", "203.0.113.7"].count b ≤ 2 := List.count_le_length
  rw [hphases, allowedIn, List.map_singleton, List.sum_singleton, allowed_eq_min (by omega)]
  exact (Nat.min_le_right _ _).trans (by decide)

/-- So it holds of a run that clears the map once at most. -/
theorem doubled_of_two_phases {maxPerWindow : UInt32} {window : Nat} {run : List Hit}
    (hspan : WithinWindow window run) (hlen : run.length < 2 ^ 32)
    (h : (phases 10001 [] (run.map Hit.bucket)).length ≤ 2) :
    AtMostDoubled maxPerWindow window run := by
  rw [doubles_iff hspan]
  intro b
  have hle : ∀ n ∈ (phases 10001 [] (run.map Hit.bucket)).map
      (fun block => allowed maxPerWindow (block.count b)), n ≤ maxPerWindow.toNat := by
    intro n hn
    obtain ⟨block, hblock, rfl⟩ := List.mem_map.mp hn
    have hlen' := Kit.Phases.length_le_of_mem hblock
    have hcount : block.count b ≤ block.length := List.count_le_length
    rw [List.length_nil, List.length_map] at hlen'
    rw [allowed_eq_min (by omega)]
    exact Nat.min_le_right _ _
  have hsum := List.sum_le_card_nsmul _ _ hle
  rw [List.length_map, smul_eq_mul] at hsum
  exact hsum.trans (Nat.mul_le_mul_right _ h)

/-! ### Two sprays -/

/-- 10 000 short keys. -/
def spray : List Hit := (List.range 10000).map fun i => ⟨0, Kit.dec i⟩

/-- A key hits three times, after a spray each time but the first. -/
def sprayRun : List Hit :=
  ⟨0, "203.0.113.7"⟩ :: spray ++ ⟨0, "203.0.113.7"⟩ :: spray ++ [⟨0, "203.0.113.7"⟩]

theorem bucket_dec {i : Nat} (h : i < 10000) : bucket (Kit.dec i) = Kit.dec i := by
  apply bucket_of_short
  rw [Kit.dec_toList]
  exact (Nat.toDigits_length 10 i 4 (by decide) h).trans (by decide)

theorem spray_buckets : spray.map Hit.bucket = (List.range 10000).map Kit.dec := by
  rw [spray, List.map_map]
  exact List.map_congr_left fun i hi => bucket_dec (List.mem_range.mp hi)

theorem nodup_spray : ("203.0.113.7" :: (List.range 10000).map Kit.dec).Nodup := by
  rw [List.nodup_cons]
  constructor
  · intro hmem
    obtain ⟨i, -, hi⟩ := List.mem_map.mp hmem
    have hdigit := Kit.dec_digits i '.' (by rw [hi]; decide)
    exact absurd hdigit (by decide)
  · refine List.Nodup.map_on ?_ List.nodup_range
    intro i hi j hj hij
    have h := Kit.parseUInt_dec (List.mem_range.mp hi)
    rw [hij, Kit.parseUInt_dec (List.mem_range.mp hj)] at h
    exact (Except.ok.inj h).symm

/-- A key that comes back after each full phase. -/
theorem phases_twice {k : Nat} {key : String} {others : List String}
    (hnodup : (key :: others).Nodup) (hlen : (key :: others).length = k) :
    phases k [] ((key :: others) ++ key :: (others ++ [key])) =
      [key :: others, key :: others, [key]] := by
  have hfull : k ≤ (key :: others).dedup.length := by
    rw [List.dedup_eq_self.mpr hnodup, hlen]
  rw [Kit.Phases.phases_fresh hnodup hlen.le, List.nil_append, Kit.Phases.phases_full hfull,
    Kit.Phases.phases_fresh hnodup hlen.le, List.singleton_append, Kit.Phases.phases_full hfull]
  rfl

theorem phases_sprayRun : phases 10001 [] (sprayRun.map Hit.bucket) =
    ["203.0.113.7" :: (List.range 10000).map Kit.dec,
      "203.0.113.7" :: (List.range 10000).map Kit.dec, ["203.0.113.7"]] := by
  have hkey : Hit.bucket ⟨0, "203.0.113.7"⟩ = "203.0.113.7" := bucket_of_short (by decide)
  have hlen : ("203.0.113.7" :: (List.range 10000).map Kit.dec).length = 10001 := by
    rw [List.length_cons, List.length_map, List.length_range]
  rw [← phases_twice nodup_spray hlen]
  simp only [sprayRun, List.map_append, List.map_cons, List.map_nil, spray_buckets, hkey,
    List.append_assoc, List.cons_append]

theorem sprayRun_within : WithinWindow 60000000000 sprayRun := by
  refine ⟨0, fun h hmem => ⟨Nat.zero_le _, ?_⟩⟩
  have hnow : h.now = 0 := by
    simp only [sprayRun, spray, List.mem_append, List.mem_cons, List.mem_map,
      List.not_mem_nil, or_false] at hmem
    rcases hmem with (⟨rfl | ⟨i, -, rfl⟩⟩ | rfl | ⟨i, -, rfl⟩) | rfl <;> rfl
  rw [hnow]
  decide

/-- With an allowance of one a minute, the key is let in three times at one instant. -/
theorem third_allowance :
    ¬ ∀ (maxPerWindow : UInt32) (window : Nat) (run : List Hit), WithinWindow window run →
      AtMostDoubled maxPerWindow window run := by
  intro hall
  have h := (doubles_iff sprayRun_within).mp (hall 1 60000000000 sprayRun sprayRun_within)
    "203.0.113.7"
  have hcount := List.count_eq_one_of_mem nodup_spray List.mem_cons_self
  have hone : allowed 1 1 = 1 := by decide
  simp only [phases_sprayRun, allowedIn, List.map_cons, List.map_nil, List.sum_cons, List.sum_nil,
    hcount, List.count_singleton_self, hone] at h
  exact absurd h (by decide)

end Registry
end Nockmark
