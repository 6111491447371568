import Mathlib.Data.List.DropRight
import Nockmark.Kernel.Driver

/-!
# Kernel.Decode

What the driver reads back of a run that it submitted.

A number has no trailing zero bytes, so a text comes back without the NUL characters at its end;
nothing else is lost while every field fits its type.

* `intoString_cord`: text through a cord.
* `fromNoun_of_fits`: a run whose fields fit decodes, with the fields it has.
* `leaderboard_cons`: if all runs fit, the leaderboard has a record of each, the newest first.
-/

namespace Nockmark
namespace Kernel

/-! ### Text -/

theorem leNat_eq_ofDigits (bs : List UInt8) :
    Kit.leNat bs = Nat.ofDigits 256 (bs.map UInt8.toNat) := by
  induction bs with
  | nil => rfl
  | cons b bs ih => rw [Kit.leNat, List.map_cons, Nat.ofDigits_cons, ih]

theorem atomBytes_leNat {bs : List UInt8} (h : ∀ hne : bs ≠ [], bs.getLast hne ≠ 0) :
    atomBytes (Kit.leNat bs) = bs := by
  have hdigits : Nat.digits 256 (Kit.leNat bs) = bs.map UInt8.toNat := by
    rw [leNat_eq_ofDigits]
    apply Nat.digits_ofDigits _ (by omega)
    · intro l hl
      obtain ⟨b, -, rfl⟩ := List.mem_map.mp hl
      exact b.toNat_lt
    · intro hne hlast
      rw [List.getLast_map] at hlast
      exact h (by simpa using hne) (UInt8.toNat_inj.mp hlast)
  rw [atomBytes, hdigits, List.map_map]
  exact List.map_id'' (fun b => UInt8.ofNat_toNat) bs

/-- The characters without the NULs at their end. -/
def trimNul (cs : List Char) : List Char := cs.rdropWhile fun c => c = '\x00'

theorem getLast_encodeChar {c : Char} (hc : c ≠ '\x00')
    (hne : String.utf8EncodeChar c ≠ []) : (String.utf8EncodeChar c).getLast hne ≠ 0 := by
  intro h0
  have hmem : (0 : UInt8) ∈ String.utf8EncodeChar c := h0 ▸ List.getLast_mem hne
  have hone := Kit.Utf8.encodeChar_of_ascii_mem hmem (by decide)
  have : [c] = ['\x00'] := Kit.Utf8.encode_injective (by
    rw [Kit.Utf8.encode_cons, hone]
    rfl)
  cases this
  exact hc rfl

theorem atomBytes_encode (cs : List Char) :
    atomBytes (Kit.leNat (Kit.Utf8.encode cs)) = Kit.Utf8.encode (trimNul cs) := by
  induction cs using List.reverseRecOn with
  | nil => rfl
  | append_singleton cs c ih =>
    by_cases hc : c = '\x00'
    · -- a NUL is a zero byte, which the number does not have
      subst hc
      rw [trimNul, List.rdropWhile_concat_pos _ _ _ (by simp), ← trimNul, ← ih,
        Kit.Utf8.encode_append, Kit.leNat_append]
      rfl
    · rw [trimNul, List.rdropWhile_concat_neg _ _ _ (by simpa using hc)]
      apply atomBytes_leNat
      intro hne
      have hc0 : String.utf8EncodeChar c ≠ [] := String.utf8EncodeChar_ne_nil
      have heq : Kit.Utf8.encode (cs ++ [c]) = Kit.Utf8.encode cs ++ String.utf8EncodeChar c := by
        rw [Kit.Utf8.encode_append, Kit.Utf8.encode_cons, Kit.Utf8.encode_nil, List.append_nil]
      simp only [heq, List.getLast_append_of_ne_nil _ hc0]
      exact getLast_encodeChar hc hc0

theorem intoString_cord (field s : String) :
    intoString field (cord s) = .ok (String.ofList (trimNul s.toList)) := by
  rw [intoString, cord, atomBytes_encode, Kit.Utf8.decode?_encode]

/-- The text ends in a NUL character. -/
def EndsInNul (s : String) : Prop := s.toList.getLast? = some '\x00'

instance (s : String) : Decidable (EndsInNul s) := by unfold EndsInNul; infer_instance

/-- Exactly the texts that end in a NUL come back changed. -/
theorem trimNul_eq_iff (s : String) : String.ofList (trimNul s.toList) = s ↔ ¬ EndsInNul s := by
  have hs : String.ofList (trimNul s.toList) = s ↔ trimNul s.toList = s.toList := by
    constructor
    · intro h
      have := congrArg String.toList h
      rwa [String.toList_ofList] at this
    · intro h
      rw [h, String.ofList_toList]
  rw [hs, trimNul, List.rdropWhile_eq_self_iff, EndsInNul, List.getLast?_eq_some_iff]
  cases hl : s.toList using List.reverseRecOn with
  | nil => simp
  | append_singleton cs c => simp

/-! ### Runs -/

/-- Every field of the run fits the type that the driver decodes it to. -/
structure Run.Fits (r : Run) : Prop where
  id_lt : r.id < 2 ^ 64
  nonce_lt : r.nonce < 2 ^ 64
  hardware : ∃ s : String, r.hardware = cord s
  proverVersion : ∃ s : String, r.proverVersion = cord s
  k_lt : r.k < 2 ^ 64
  elapsed_lt : r.elapsedMs < 2 ^ 64
  issued_lt : r.issuedAt < 2 ^ 128
  submitted_lt : r.submittedAt < 2 ^ 128

theorem fromNoun_of_fits {r : Run} (h : r.Fits) {hardware proverVersion : String}
    (hhw : r.hardware = cord hardware) (hpv : r.proverVersion = cord proverVersion) :
    RunRecord.fromNoun r = .ok
      ⟨r.id, r.nonce, String.ofList (trimNul hardware.toList),
        String.ofList (trimNul proverVersion.toList), r.k, r.elapsedMs, r.issuedAt,
        r.submittedAt⟩ := by
  rw [RunRecord.fromNoun, hhw, hpv, intoString_cord, intoString_cord, asU64, if_pos h.id_lt, asU64,
    if_pos h.nonce_lt, asU64, if_pos h.k_lt, asU64, if_pos h.elapsed_lt, atomToU128,
    if_pos h.issued_lt, atomToU128, if_pos h.submitted_lt]
  rfl

theorem mapM_isOk {α β : Type} {f : α → Except String β} {as : List α}
    (h : ∀ a ∈ as, ∃ b, f a = .ok b) : ∃ bs, as.mapM f = .ok bs := by
  induction as with
  | nil => exact ⟨[], rfl⟩
  | cons a as ih =>
    obtain ⟨b, hb⟩ := h a List.mem_cons_self
    obtain ⟨bs, hbs⟩ := ih fun a' ha' => h a' (List.mem_cons_of_mem _ ha')
    exact ⟨b :: bs, by rw [List.mapM_cons, hb, hbs]; rfl⟩

/-- The newest run is the first of the records. -/
theorem leaderboard_cons {s : RegistryState} {r : Run} {runs : List Run} (hr : s.runs = r :: runs)
    (h : ∀ r' ∈ s.runs, r'.Fits) {rec : RunRecord} (hrec : RunRecord.fromNoun r = .ok rec) :
    ∃ recs, leaderboard s = .ok (rec :: recs) := by
  have hrest : ∀ r' ∈ runs, ∃ rec, RunRecord.fromNoun r' = .ok rec := by
    intro r' hr'
    have hf := h r' (hr ▸ List.mem_cons_of_mem _ hr')
    obtain ⟨hw, hhw⟩ := hf.hardware
    obtain ⟨pv, hpv⟩ := hf.proverVersion
    exact ⟨_, fromNoun_of_fits hf hhw hpv⟩
  obtain ⟨recs, hrecs⟩ := mapM_isOk hrest
  refine ⟨recs, ?_⟩
  rw [leaderboard, hr, List.mapM_cons, hrec, hrecs]
  rfl

end Kernel
end Nockmark
