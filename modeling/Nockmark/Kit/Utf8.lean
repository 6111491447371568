import Mathlib.Data.List.Basic

/-!
# Kit.Utf8

Text as bytes. `encode` writes a list of characters as UTF-8 and `decode?` reads bytes back,
failing on bytes that are not UTF-8; both are the core library's, over `List UInt8`.

* `decode?_eq_some`: what decodes is exactly what was encoded.
* `encode_split`: UTF-8 is self-synchronizing at an ASCII byte. Where encoded text is cut around
  an ASCII byte, what stands before it and after it is encoded text.
* `take_encode_iff`: bytes cut from the front of text are text exactly where a character begins.
* `take_encode_ascii`: where every character is one byte, that is everywhere.
* `prefix_of_encode_prefix`: no text's bytes begin another's, except where its characters do.
-/

namespace Kit
namespace Utf8

def encode (cs : List Char) : List UInt8 := cs.flatMap String.utf8EncodeChar

def decode? (bs : List UInt8) : Option (List Char) := bs.toByteArray.utf8Decode?.map Array.toList

@[simp] theorem encode_nil : encode [] = [] := rfl

@[simp] theorem encode_cons (c : Char) (cs : List Char) :
    encode (c :: cs) = String.utf8EncodeChar c ++ encode cs := List.flatMap_cons

@[simp] theorem encode_append (cs ds : List Char) : encode (cs ++ ds) = encode cs ++ encode ds :=
  List.flatMap_append

theorem decode?_encode (cs : List Char) : decode? (encode cs) = some cs := by
  have h : (encode cs).toByteArray = cs.utf8Encode := rfl
  rw [decode?, h, List.utf8Decode?_utf8Encode]
  rfl

theorem decode?_eq_some {bs : List UInt8} {cs : List Char} :
    decode? bs = some cs ↔ bs = encode cs := by
  constructor
  · intro h
    simp only [decode?, Option.map_eq_some_iff] at h
    obtain ⟨a, ha, rfl⟩ := h
    have hs : bs.toByteArray.utf8Decode?.isSome = true := by rw [ha]; rfl
    obtain ⟨ds, hds⟩ := ByteArray.isSome_utf8Decode?_iff.mp hs
    rw [hds, List.utf8Decode?_utf8Encode] at ha
    cases ha
    have := congrArg (fun b => b.data.toList) hds
    simpa [encode, List.utf8Encode, List.data_toByteArray] using this
  · rintro rfl
    exact decode?_encode cs

theorem encode_injective : Function.Injective encode := by
  intro cs ds h
  have := decode?_encode cs
  rw [h, decode?_encode] at this
  exact (Option.some.inj this).symm

/-- A byte below `0x80` occurs only as the encoding of its own character. -/
theorem encodeChar_of_ascii_mem {c : Char} {b : UInt8} (hb : b ∈ String.utf8EncodeChar c)
    (h : b < 0x80) : String.utf8EncodeChar c = [b] := by
  rw [UInt8.lt_iff_toNat_lt] at h
  simp only [String.utf8EncodeChar] at hb ⊢
  split at hb
  · rename_i hv
    rw [if_pos hv]
    simp only [List.mem_singleton] at hb
    rw [hb]
  -- every byte of a longer encoding is at least `0x80`
  all_goals
    exfalso
    (try split at hb) <;> (try split at hb) <;>
      simp only [List.mem_cons, List.not_mem_nil, or_false] at hb <;>
      rcases hb with rfl | rfl | rfl | rfl <;> simp at h <;> omega

/-- Text cut around an ASCII byte is text, one ASCII character, and text. -/
theorem encode_split {cs : List Char} {pre post : List UInt8} {b : UInt8} (hb : b < 0x80)
    (h : encode cs = pre ++ b :: post) :
    ∃ cs₁ c cs₂, cs = cs₁ ++ c :: cs₂ ∧ encode cs₁ = pre ∧ String.utf8EncodeChar c = [b] ∧
      encode cs₂ = post := by
  induction cs generalizing pre with
  | nil => simp at h
  | cons c cs ih =>
    have here : ∀ {p q : List UInt8}, String.utf8EncodeChar c = p ++ b :: q →
        p = [] ∧ q = [] ∧ String.utf8EncodeChar c = [b] := by
      intro p q hc
      have hone := encodeChar_of_ascii_mem (c := c) (b := b) (by rw [hc]; simp) hb
      rw [hone] at hc
      have hlen := congrArg List.length hc
      simp only [List.length_append, List.length_cons, List.length_nil] at hlen
      exact ⟨List.length_eq_zero_iff.mp (by omega), List.length_eq_zero_iff.mp (by omega), hone⟩
    rw [encode_cons, List.append_eq_append_iff] at h
    rcases h with ⟨mid, hpre, hrest⟩ | ⟨mid, hc, hrest⟩
    · obtain ⟨cs₁, d, cs₂, rfl, h1, hd, h2⟩ := ih hrest
      exact ⟨c :: cs₁, d, cs₂, rfl, by rw [encode_cons, h1, hpre], hd, h2⟩
    · cases mid with
      | nil =>
        obtain ⟨cs₁, d, cs₂, rfl, h1, hd, h2⟩ := @ih [] hrest.symm
        exact ⟨c :: cs₁, d, cs₂, rfl, by rw [encode_cons, h1, hc]; simp, hd, h2⟩
      | cons b' mid =>
        rw [List.cons_append, List.cons.injEq] at hrest
        obtain ⟨rfl, hrest⟩ := hrest
        obtain ⟨rfl, rfl, hone⟩ := here hc
        exact ⟨[], c, cs, rfl, rfl, hone, hrest.symm⟩

/-- The same around a newline, which only the newline character encodes to. -/
theorem encode_split_newline {cs : List Char} {pre post : List UInt8}
    (h : encode cs = pre ++ 0x0A :: post) :
    ∃ cs₁ cs₂, cs = cs₁ ++ '\n' :: cs₂ ∧ encode cs₁ = pre ∧ encode cs₂ = post := by
  obtain ⟨cs₁, c, cs₂, rfl, h1, hc, h2⟩ := encode_split (by decide) h
  have : [c] = ['\n'] := encode_injective (by simp [hc]; rfl)
  cases this
  exact ⟨cs₁, cs₂, rfl, h1, h2⟩

theorem prefix_of_encode_prefix {cs ds : List Char} (h : encode cs <+: encode ds) : cs <+: ds := by
  obtain ⟨r, hr⟩ := h
  apply List.isPrefix_of_utf8Encode_append_eq_utf8Encode r.toByteArray
  have := congrArg List.toByteArray hr
  rwa [List.toByteArray_append] at this

/-- The bytes end at `n` or before, or a character begins there. -/
def Boundary (bs : List UInt8) (n : Nat) : Prop := ∀ b, bs[n]? = some b → b.IsUTF8FirstByte

theorem take_encode_iff (cs : List Char) (n : Nat) :
    (∃ q, (encode cs).take n = encode q) ↔ Boundary (encode cs) n := by
  induction cs generalizing n with
  | nil => exact ⟨fun _ b hb => by simp at hb, fun _ => ⟨[], by simp⟩⟩
  | cons c cs ih =>
    rw [encode_cons]
    by_cases hn : n < (String.utf8EncodeChar c).length
    · -- within the first character, only its first byte begins one
      have hget : (String.utf8EncodeChar c ++ encode cs)[n]? =
          some (String.utf8EncodeChar c)[n] := by
        rw [List.getElem?_append_left hn, List.getElem?_eq_getElem hn]
      have hfirst : Boundary (String.utf8EncodeChar c ++ encode cs) n ↔ n = 0 := by
        rw [← @UInt8.isUTF8FirstByte_getElem_utf8EncodeChar c n hn]
        simp [Boundary, hget]
      rw [hfirst, List.take_append_of_le_length (Nat.le_of_lt hn)]
      constructor
      · rintro ⟨q, hq⟩
        cases q with
        | nil => exact (List.take_eq_nil_iff.mp hq).resolve_right String.utf8EncodeChar_ne_nil
        | cons d q =>
          have hpre : encode [d] <+: encode [c] := by
            simp only [encode_cons, encode_nil, List.append_nil] at hq ⊢
            exact (List.prefix_append _ _).trans (hq ▸ List.take_prefix _ _)
          obtain rfl : d = c := by simpa using prefix_of_encode_prefix hpre
          have hlen := congrArg List.length hq
          simp only [encode_cons, List.length_append, List.length_take] at hlen
          omega
      · rintro rfl
        exact ⟨[], rfl⟩
    · have hle := Nat.le_of_not_lt hn
      have hget : (String.utf8EncodeChar c ++ encode cs)[n]? =
          (encode cs)[n - (String.utf8EncodeChar c).length]? := List.getElem?_append_right hle
      have hb : Boundary (String.utf8EncodeChar c ++ encode cs) n ↔
          Boundary (encode cs) (n - (String.utf8EncodeChar c).length) := by
        simp only [Boundary, hget]
      rw [hb, ← ih, List.take_append, List.take_of_length_le hle]
      constructor
      · rintro ⟨q, hq⟩
        cases q with
        | nil => exact absurd (List.append_eq_nil_iff.mp hq).1 String.utf8EncodeChar_ne_nil
        | cons d q =>
          have hpre : encode [c] <+: encode (d :: q) := by
            rw [← hq]
            simp
          obtain rfl : c = d := by simpa using prefix_of_encode_prefix hpre
          exact ⟨q, by simpa using hq⟩
      · rintro ⟨q, hq⟩
        exact ⟨c :: q, by rw [encode_cons, hq]⟩

/-- Text of one-byte characters can be cut anywhere. -/
theorem take_encode_ascii {cs : List Char} (h : ∀ c ∈ cs, c.toNat < 0x80) (n : Nat) :
    (encode cs).take n = encode (cs.take n) := by
  induction cs generalizing n with
  | nil => simp
  | cons c cs ih =>
    obtain ⟨hc, hcs⟩ := List.forall_mem_cons.mp h
    have hone : (String.utf8EncodeChar c).length = 1 := by
      rw [String.length_utf8EncodeChar, Char.utf8Size_eq_one_iff, UInt32.le_iff_toNat_le]
      exact Nat.le_of_lt_succ hc
    cases n with
    | zero => rfl
    | succ n =>
      rw [encode_cons, List.take_succ_cons, encode_cons, ← ih hcs, List.take_append, hone,
        List.take_of_length_le (by omega), Nat.add_sub_cancel]

end Utf8
end Kit
