import Nockmark.Kit.Decimal
import Nockmark.Kit.Json
import Nockmark.Kit.Stripes
import Nockmark.Tock.Nonce

/-!
# Tock.Bench

`tock bench --submit` (`bench` in `tock/src/main.rs`), from the challenge to the proofs it sends.

Each booted kernel gets a task, which proves every `threads`-th index; the tasks end in any order.
Indices are u64 and wrap, and a vector holds no more than the allocator grants. `none` is a panic:
of an assertion, of the prover, or of a vector.

* `proveStripe_stripe`: a task's indices are a stripe, where no sum of indices wraps.
* `bench_indices`: whatever it proves with, the proofs are of the indices below `k`, in order. A
  sum that wraps belongs to more proofs than a vector can hold.
* `bench_isSome`: it ends with proofs, where a vector can hold them.
-/

namespace Nockmark
namespace Tock

open Kit.Json (Value)
open Kit.Stripes (Stripe sortByIndex)

structure ProveOutput where
  durationMs : UInt64
  proofJam : List UInt8

/-- What a client runs on. The prover takes its thread and the index it is at, then what the kernel
is poked with: header, nonce and pow-len. -/
structure Client where
  runProve : ℕ → UInt64 → List UInt64 → List UInt64 → UInt64 → Option ProveOutput
  base64 : List UInt8 → String
  capacity : ℕ
  /-- `isize::MAX` -/
  capacity_le : capacity ≤ 2 ^ 63 - 1

/-- An entry of a task's results. -/
structure Proved where
  i : UInt64
  ms : UInt64
  jam : List UInt8

def headerBelts (seed : String) : List UInt64 := seedToBelts seed "header"

def nonceBelts (seed : String) (i : UInt64) : List UInt64 :=
  seedToBelts (seed ++ "/" ++ Kit.dec i.toNat) "nonce"

/-- The loop of task `tid` at index `i`, with room for so many more results. -/
def proveStripe (c : Client) (seed : String) (k powLen threads : UInt64) (tid : ℕ) :
    ℕ → UInt64 → Option (List Proved)
  | 0, i => if i < k then none else some []
  | room + 1, i =>
    if i < k then
      match c.runProve tid i (headerBelts seed) (nonceBelts seed i) powLen with
      | none => none
      | some out =>
        (proveStripe c seed k powLen threads tid room (i + threads)).map
          (⟨i, out.durationMs, out.proofJam⟩ :: ·)
    else some []

/-- Task `tid` starts at its own number, with an empty vector of results. -/
def proveTask (c : Client) (seed : String) (k powLen threads : UInt64) (tid : ℕ) :
    Option (List Proved) :=
  proveStripe c seed k powLen threads tid c.capacity (UInt64.ofNat tid)

/-- `join_next` until every task has ended, in the order in which they end. -/
def join (c : Client) (task : ℕ → Option (List Proved)) :
    List ℕ → List Proved → Option (List Proved)
  | [], perProof => some perProof
  | tid :: order, perProof =>
    match task tid with
    | none => none
    | some results =>
      if perProof.length + results.length ≤ c.capacity then join c task order (perProof ++ results)
      else none

def bench (c : Client) (threads : UInt64) (order : List ℕ) (seed : String) (k powLen : UInt64) :
    Option (List Proved) :=
  if threads = 0 then none
  else if c.capacity < threads.toNat then none
  else
    (join c (proveTask c seed k powLen threads) order []).map (sortByIndex fun p => p.i.toNat)

/-! ### The registry's client -/

structure Challenge where
  nonce : String
  k : UInt64
  powLen : UInt64
  nonceRule : String
  deriving DecidableEq

def jsonU64 (v : Value) : Option UInt64 :=
  v.asNum.bind fun n => if n < 2 ^ 64 then some (UInt64.ofNat n) else none

/-- `resp.json::<Challenge>()` -/
def Challenge.fromValue : Value → Option Challenge
  | .obj m => do
    let nonce ← (← m.get "nonce").asStr
    let k ← jsonU64 (← m.get "k")
    let powLen ← jsonU64 (← m.get "pow_len")
    let nonceRule ← (← m.get "nonce_rule").asStr
    return ⟨nonce, k, powLen, nonceRule⟩
  | _ => none

structure Submission where
  nonce : String
  hardware : String
  proverVersion : String
  elapsedMs : UInt64
  proofs : List String

/-- The submission for a challenge, with the descriptors and the time that the run ended with. -/
def benchSubmit (c : Client) (threads : UInt64) (order : List ℕ) (ch : Challenge)
    (hardware proverVersion : String) (elapsedMs : UInt64) : Option Submission :=
  if ch.nonceRule ≠ nonceRule then none
  else
    (bench c threads order ch.nonce ch.k ch.powLen).map fun perProof =>
      { nonce := ch.nonce
        hardware
        proverVersion
        elapsedMs
        proofs := perProof.map fun p => c.base64 p.jam }

/-! ### A task -/

section Task

variable {c : Client} {seed : String} {k powLen threads : UInt64} {tid : ℕ}

/-- The prover was run on the seed's belts for the entry's index, by thread `tid`. -/
def Proved.By (c : Client) (seed : String) (powLen : UInt64) (tid : ℕ) (p : Proved) : Prop :=
  ∃ out, c.runProve tid p.i (headerBelts seed) (nonceBelts seed p.i) powLen = some out ∧
    p.ms = out.durationMs ∧ p.jam = out.proofJam

def indices (results : List Proved) : List ℕ := results.map fun p => p.i.toNat

/-- One pass of the loop: it ends, or an index is proved and the rest follows. -/
theorem proveStripe_eq_some {room : ℕ} {i : UInt64} {results : List Proved}
    (h : proveStripe c seed k powLen threads tid room i = some results) :
    (¬ i < k ∧ results = []) ∨
    ∃ room' out rest, room = room' + 1 ∧ i < k ∧
      c.runProve tid i (headerBelts seed) (nonceBelts seed i) powLen = some out ∧
      proveStripe c seed k powLen threads tid room' (i + threads) = some rest ∧
      results = ⟨i, out.durationMs, out.proofJam⟩ :: rest := by
  cases room with
  | zero =>
    simp only [proveStripe] at h
    split at h
    · cases h
    · rename_i hi
      cases h
      exact .inl ⟨hi, rfl⟩
  | succ room =>
    simp only [proveStripe] at h
    split at h
    · rename_i hi
      split at h
      · cases h
      · rename_i out hout
        obtain ⟨rest, hrest, rfl⟩ := Option.map_eq_some_iff.mp h
        exact .inr ⟨room, out, rest, rfl, hi, hout, hrest, rfl⟩
    · rename_i hi
      cases h
      exact .inl ⟨hi, rfl⟩

theorem proveStripe_by {room : ℕ} {i : UInt64} {results : List Proved}
    (h : proveStripe c seed k powLen threads tid room i = some results) :
    ∀ p ∈ results, p.By c seed powLen tid := by
  induction room generalizing i results with
  | zero =>
    obtain ⟨-, rfl⟩ | ⟨_, _, _, hroom, -⟩ := proveStripe_eq_some h
    · simp
    · cases hroom
  | succ room ih =>
    obtain ⟨-, rfl⟩ | ⟨_, out, rest, hroom, -, hout, hrest, rfl⟩ := proveStripe_eq_some h
    · simp
    · cases hroom
      intro p hp
      rcases List.mem_cons.mp hp with rfl | hp
      · exact ⟨out, hout, rfl, rfl⟩
      · exact ih hrest p hp

theorem toNat_add_of_le {i : UInt64} {j : ℕ} (h : i.toNat + threads.toNat ≤ j) (hj : j < k.toNat) :
    (i + threads).toNat = i.toNat + threads.toNat := by
  have := k.toNat_lt
  rw [UInt64.toNat_add, Nat.mod_eq_of_lt (by omega)]

/-- A task reaches every index of its stripe, whatever it does once its index wraps. -/
theorem proveStripe_covers {room : ℕ} {i : UInt64} {results : List Proved}
    (h : proveStripe c seed k powLen threads tid room i = some results) {j : ℕ}
    (hij : i.toNat ≤ j) (hj : j < k.toNat) (hmod : j % threads.toNat = i.toNat % threads.toNat) :
    j ∈ indices results := by
  induction room generalizing i results with
  | zero =>
    obtain ⟨hi, -⟩ | ⟨_, _, _, hroom, -⟩ := proveStripe_eq_some h
    · rw [UInt64.lt_iff_toNat_lt] at hi
      omega
    · cases hroom
  | succ room ih =>
    obtain ⟨hi, -⟩ | ⟨_, out, rest, hroom, -, hout, hrest, rfl⟩ := proveStripe_eq_some h
    · rw [UInt64.lt_iff_toNat_lt] at hi
      omega
    · cases hroom
      rcases Kit.Stripes.eq_or_step_le hij hmod with rfl | hle
      · exact List.mem_cons_self
      · have hadd := toNat_add_of_le hle hj
        apply List.mem_cons_of_mem
        apply ih hrest
        · omega
        · rw [hadd, Nat.add_mod_right, hmod]

theorem proveStripe_stripe (hpos : 0 < threads.toNat) (hwrap : k.toNat + threads.toNat ≤ 2 ^ 64)
    {room : ℕ} {i : UInt64} {results : List Proved}
    (h : proveStripe c seed k powLen threads tid room i = some results) :
    Stripe k.toNat threads.toNat i.toNat (indices results) := by
  induction room generalizing i results with
  | zero =>
    obtain ⟨hi, rfl⟩ | ⟨_, _, _, hroom, -⟩ := proveStripe_eq_some h
    · rw [UInt64.lt_iff_toNat_lt] at hi
      exact Kit.Stripes.stripe_nil (by omega)
    · cases hroom
  | succ room ih =>
    obtain ⟨hi, rfl⟩ | ⟨_, out, rest, hroom, hi, hout, hrest, rfl⟩ := proveStripe_eq_some h
    · rw [UInt64.lt_iff_toNat_lt] at hi
      exact Kit.Stripes.stripe_nil (by omega)
    · cases hroom
      rw [UInt64.lt_iff_toNat_lt] at hi
      have hadd : (i + threads).toNat = i.toNat + threads.toNat := by
        rw [UInt64.toNat_add, Nat.mod_eq_of_lt (by omega)]
      have hstripe := ih hrest
      rw [hadd] at hstripe
      exact Kit.Stripes.stripe_cons hpos hi hstripe

/-- With room for all indices above it, a task ends. -/
theorem proveStripe_isSome (hpos : 0 < threads.toNat) (hwrap : k.toNat + threads.toNat ≤ 2 ^ 64)
    (hprove : ∀ i < k,
      (c.runProve tid i (headerBelts seed) (nonceBelts seed i) powLen).isSome)
    {room : ℕ} {i : UInt64} (hroom : k.toNat ≤ i.toNat + room) :
    (proveStripe c seed k powLen threads tid room i).isSome := by
  induction room generalizing i with
  | zero =>
    have hi : ¬ i < k := by
      rw [UInt64.lt_iff_toNat_lt]
      omega
    simp [proveStripe, hi]
  | succ room ih =>
    by_cases hi : i < k
    · obtain ⟨out, hout⟩ := Option.isSome_iff_exists.mp (hprove i hi)
      have hlt := UInt64.lt_iff_toNat_lt.mp hi
      have hadd : (i + threads).toNat = i.toNat + threads.toNat := by
        rw [UInt64.toNat_add, Nat.mod_eq_of_lt (by omega)]
      have hrest := ih (i := i + threads) (by omega)
      rw [proveStripe, if_pos hi]
      simp only [hout, Option.isSome_map, hrest]
    · simp [proveStripe, hi]

end Task

/-! ### All tasks -/

section Join

variable {c : Client} {task : ℕ → Option (List Proved)}

theorem join_eq_some {order : List ℕ} {acc perProof : List Proved}
    (h : join c task order acc = some perProof) (hacc : acc.length ≤ c.capacity) :
    (∀ tid ∈ order, ∃ results, task tid = some results) ∧
      perProof = acc ++ order.flatMap (fun tid => (task tid).getD []) ∧
      perProof.length ≤ c.capacity := by
  induction order generalizing acc with
  | nil =>
    cases h
    simpa using hacc
  | cons tid order ih =>
    simp only [join] at h
    split at h
    · cases h
    rename_i results hresults
    split at h
    · rename_i hroom
      obtain ⟨hall, rfl, hlen⟩ := ih h (by simpa using hroom)
      refine ⟨?_, by simp [hresults], hlen⟩
      intro t ht
      rcases List.mem_cons.mp ht with rfl | ht
      · exact ⟨results, hresults⟩
      · exact hall t ht
    · cases h

theorem join_isSome {order : List ℕ} {acc : List Proved}
    (hall : ∀ tid ∈ order, (task tid).isSome)
    (hlen : (acc ++ order.flatMap fun tid => (task tid).getD []).length ≤ c.capacity) :
    (join c task order acc).isSome := by
  induction order generalizing acc with
  | nil => rfl
  | cons tid order ih =>
    obtain ⟨results, hresults⟩ := Option.isSome_iff_exists.mp (hall tid List.mem_cons_self)
    rw [List.flatMap_cons, hresults, Option.getD_some, ← List.append_assoc] at hlen
    have hroom : acc.length + results.length ≤ c.capacity := by
      rw [List.length_append, List.length_append] at hlen
      omega
    simp only [join, hresults, if_pos hroom]
    exact ih (fun t ht => hall t (List.mem_cons_of_mem _ ht)) hlen

end Join

section Bench

variable {c : Client} {threads : UInt64} {order : List ℕ} {seed : String} {k powLen : UInt64}

theorem toNat_ofNat_of_mem (horder : order.Perm (List.range threads.toNat)) {tid : ℕ}
    (h : tid ∈ order) : (UInt64.ofNat tid).toNat = tid := by
  rw [horder.mem_iff, List.mem_range] at h
  exact UInt64.toNat_ofNat_of_lt' (lt_trans h threads.toNat_lt)

/-- Every index below `k` is in the results, so `k` results fit into a vector. -/
theorem k_le_capacity (hpos : 0 < threads.toNat) (horder : order.Perm (List.range threads.toNat))
    {perProof : List Proved}
    (h : join c (proveTask c seed k powLen threads) order [] = some perProof) :
    k.toNat ≤ c.capacity := by
  obtain ⟨hall, hper, hlen⟩ := join_eq_some h (Nat.zero_le _)
  have hsub : List.range k.toNat ⊆ indices perProof := by
    intro j hj
    rw [List.mem_range] at hj
    have hmod := Nat.mod_lt j hpos
    have htid : j % threads.toNat ∈ order := by
      rw [horder.mem_iff, List.mem_range]
      exact hmod
    obtain ⟨results, hresults⟩ := hall _ htid
    have hnat := toNat_ofNat_of_mem horder htid
    have hcov := proveStripe_covers hresults (j := j) (by rw [hnat]; exact Nat.mod_le _ _) hj
      (by rw [hnat, Nat.mod_mod])
    obtain ⟨p, hp, hpj⟩ := List.mem_map.mp hcov
    refine List.mem_map.mpr ⟨p, ?_, hpj⟩
    rw [hper, List.nil_append, List.mem_flatMap]
    exact ⟨_, htid, by rw [hresults]; exact hp⟩
  have hle := (List.nodup_range.subperm hsub).length_le
  rw [List.length_range, indices, List.length_map] at hle
  omega

theorem indices_flatMap (task : ℕ → List Proved) (order : List ℕ) :
    indices (order.flatMap task) = order.flatMap fun tid => indices (task tid) :=
  List.map_flatMap

/-- The results of all tasks are of the indices below `k`, each once. -/
theorem joined_perm (hpos : 0 < threads.toNat) (hwrap : k.toNat + threads.toNat ≤ 2 ^ 64)
    (horder : order.Perm (List.range threads.toNat))
    (hall : ∀ tid ∈ order, ∃ results, proveTask c seed k powLen threads tid = some results) :
    (indices (order.flatMap fun tid => (proveTask c seed k powLen threads tid).getD [])).Perm
      (List.range k.toNat) := by
  rw [indices_flatMap]
  apply Kit.Stripes.perm_range hpos horder
  intro tid htid
  obtain ⟨results, hresults⟩ := hall tid htid
  have hstripe := proveStripe_stripe hpos hwrap hresults
  rw [toNat_ofNat_of_mem horder htid] at hstripe
  rw [hresults]
  exact hstripe

theorem toNat_pos (h : ¬ threads = 0) : 0 < threads.toNat := by
  rw [Nat.pos_iff_ne_zero, ← UInt64.toNat_zero]
  exact fun h0 => h (UInt64.toNat_inj.mp h0)

theorem bench_indices (horder : order.Perm (List.range threads.toNat)) {perProof : List Proved}
    (h : bench c threads order seed k powLen = some perProof) :
    indices perProof = List.range k.toNat ∧ ∀ p ∈ perProof, ∃ tid, p.By c seed powLen tid := by
  unfold bench at h
  split at h
  · cases h
  rename_i hthreads
  split at h
  · cases h
  rename_i hcap
  obtain ⟨joined, hjoin, rfl⟩ := Option.map_eq_some_iff.mp h
  have hpos := toNat_pos hthreads
  have hk := k_le_capacity hpos horder hjoin
  have hwrap : k.toNat + threads.toNat ≤ 2 ^ 64 := by
    have := c.capacity_le
    omega
  obtain ⟨hall, hper, -⟩ := join_eq_some hjoin (Nat.zero_le _)
  rw [List.nil_append] at hper
  constructor
  · apply Kit.Stripes.sortByIndex_range
    rw [hper]
    exact joined_perm hpos hwrap horder hall
  · intro p hp
    rw [(Kit.Stripes.sortByIndex_perm _ _).mem_iff, hper, List.mem_flatMap] at hp
    obtain ⟨tid, htid, hp⟩ := hp
    obtain ⟨results, hresults⟩ := hall tid htid
    rw [hresults] at hp
    exact ⟨tid, proveStripe_by hresults p hp⟩

/-- In the order of indices, the entry at `i` is of index `i`. -/
theorem index_of_getElem? {n : ℕ} {perProof : List Proved} (h : indices perProof = List.range n)
    {i : ℕ} {p : Proved} (hp : perProof[i]? = some p) : p.i.toNat = i := by
  have hi : (indices perProof)[i]? = some p.i.toNat := by
    rw [indices, List.getElem?_map, hp]
    rfl
  rw [h] at hi
  obtain ⟨hlt, hget⟩ := List.getElem?_eq_some_iff.mp hi
  rw [← hget, List.getElem_range]

theorem length_of_indices {n : ℕ} {perProof : List Proved}
    (h : indices perProof = List.range n) : perProof.length = n := by
  have := congrArg List.length h
  rwa [indices, List.length_map, List.length_range] at this

theorem bench_isSome (hthreads : threads ≠ 0) (hcap : threads.toNat ≤ c.capacity)
    (hk : k.toNat ≤ c.capacity) (horder : order.Perm (List.range threads.toNat))
    (hprove : ∀ tid, ∀ i < k,
      (c.runProve tid i (headerBelts seed) (nonceBelts seed i) powLen).isSome) :
    (bench c threads order seed k powLen).isSome := by
  have hpos := toNat_pos hthreads
  have hwrap : k.toNat + threads.toNat ≤ 2 ^ 64 := by
    have := c.capacity_le
    omega
  have hsome : ∀ tid ∈ order, (proveTask c seed k powLen threads tid).isSome := fun tid _ =>
    proveStripe_isSome hpos hwrap (hprove tid) (by omega)
  have hlen := (joined_perm hpos hwrap horder
    fun tid htid => Option.isSome_iff_exists.mp (hsome tid htid)).length_eq
  rw [indices, List.length_map, List.length_range] at hlen
  have hjoin := @join_isSome c _ order [] hsome (by rw [List.nil_append, hlen]; exact hk)
  rw [bench, if_neg hthreads, if_neg (Nat.not_lt.mpr hcap), Option.isSome_map]
  exact hjoin

end Bench

end Tock
end Nockmark
