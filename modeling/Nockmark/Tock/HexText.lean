import Nockmark.Tock.Aipow

/-!
# Tock.HexText

What `parse_hex32` accepts (`tock/src/aipow.rs`), for every text.

The length is checked in bytes, the slots are cut by byte offsets, and each goes through a general
radix parser, which takes a plus sign before a digit. So the slots are read one after the other
until one is no number; there the text is rejected, or the cut falls inside a character.

* `hexSlots_digits`: hex digits spell their bytes.
* `hexSlots_number`: a slot that is a number is two characters, and the rest is text again.
* `followsGrammar_iff`: exactly when a text is treated as the grammar says.
-/

namespace Nockmark
namespace Tock

open Kit.Utf8 (encode)

/-! ### The grammar -/

/-- `0-9a-fA-F` -/
def isHexDigit (c : Char) : Bool :=
  ('0' ≤ c && c ≤ '9') || ('a' ≤ c && c ≤ 'f') || ('A' ≤ c && c ≤ 'F')

def digitValue (c : Char) : Nat :=
  if c ≤ '9' then c.toNat - 48 else if c ≤ 'F' then c.toNat - 55 else c.toNat - 87

/-- The bytes that pairs of digits spell. -/
def spelled : List Char → List UInt8
  | a :: b :: cs => UInt8.ofNat (16 * digitValue a + digitValue b) :: spelled cs
  | _ => []

/-- 64 hex digits. -/
def Hex32 (cs : List Char) : Prop := cs.length = 64 ∧ ∀ c ∈ cs, isHexDigit c

/-- A text of the grammar gives the bytes it spells, and these give back the text in lower case and
without its prefix. Any other text is an error. -/
def FollowsGrammar (s : String) : Prop :=
  (Hex32 (stripPrefix0x s.toList) →
    ∃ b : Bytes32, parseHex32 s = some (.ok b) ∧ b.toList = spelled (stripPrefix0x s.toList) ∧
      (hex32 b).toList = (stripPrefix0x s.toList).map Char.toLower) ∧
  (¬ Hex32 (stripPrefix0x s.toList) → ∃ e, parseHex32 s = some (.error e))

/-- The first of `n` slots that is no number ends where a character ends. -/
def StopsClean : Nat → List UInt8 → Prop
  | 0, _ => False
  | n + 1, bs =>
    if (fromStrRadix16 (bs.take 2)).isOk then StopsClean n (bs.drop 2)
    else charBoundary (bs.drop 2) = true

/-! ### Characters -/

/-- A property of hex digits, checked one by one. -/
theorem hexDigit_forall {P : Char → Prop}
    (h : ∀ n < 103, isHexDigit (Char.ofNat n) → P (Char.ofNat n)) {c : Char}
    (hc : isHexDigit c) : P c := by
  have hn : c.toNat < 103 := by
    simp only [isHexDigit, Bool.or_eq_true, Bool.and_eq_true, decide_eq_true_eq, Char.le_def,
      UInt32.le_iff_toNat_le] at hc
    have hf : 'f'.val.toNat = 102 := rfl
    have hF : 'F'.val.toNat = 70 := rfl
    have h9 : '9'.val.toNat = 57 := rfl
    show c.val.toNat < 103
    omega
  have := h c.toNat hn
  rw [Char.ofNat_toNat] at this
  exact this hc

theorem encode_hexDigit {c : Char} (hc : isHexDigit c) :
    String.utf8EncodeChar c = [UInt8.ofNat c.toNat] ∧ UInt8.ofNat c.toNat ≠ 43 ∧
      hexDigit (UInt8.ofNat c.toNat) = some (digitValue c) :=
  hexDigit_forall (P := fun c => String.utf8EncodeChar c = [UInt8.ofNat c.toNat] ∧
    UInt8.ofNat c.toNat ≠ 43 ∧ hexDigit (UInt8.ofNat c.toNat) = some (digitValue c)) (by decide) hc

theorem digitChar_digitValue {c : Char} (hc : isHexDigit c) :
    digitValue c < 16 ∧ Nat.digitChar (digitValue c) = c.toLower :=
  hexDigit_forall (P := fun c => digitValue c < 16 ∧ Nat.digitChar (digitValue c) = c.toLower)
    (by decide) hc

theorem ascii_of_digit {b : UInt8} {d : Nat} (h : hexDigit b = some d) : b < 0x80 := by
  rw [UInt8.lt_iff_toNat_lt]
  show b.toNat < 128
  unfold hexDigit at h
  split at h
  · omega
  · split at h
    · omega
    · split at h
      · omega
      · cases h

/-- Only two ASCII bytes are a number. -/
theorem ascii_of_number {x y b : UInt8} (h : fromStrRadix16 [x, y] = .ok b) :
    x < 0x80 ∧ y < 0x80 := by
  simp only [fromStrRadix16] at h
  split at h
  · rename_i hplus
    split at h
    · rename_i d hd
      exact ⟨hplus ▸ by decide, ascii_of_digit hd⟩
    · cases h
  · split at h
    · rename_i d e hd he
      exact ⟨ascii_of_digit hd, ascii_of_digit he⟩
    · cases h

/-! ### Slots -/

theorem encode_cons_ascii {cs : List Char} {x : UInt8} {rest : List UInt8} (hx : x < 0x80)
    (h : encode cs = x :: rest) : ∃ cs', rest = encode cs' := by
  have hsplit : encode cs = [] ++ x :: rest := h
  obtain ⟨pre, c, cs', -, -, -, hrest⟩ := Kit.Utf8.encode_split hx hsplit
  exact ⟨cs', hrest.symm⟩

/-- Behind a slot that is a number, the text goes on. -/
theorem hexSlots_number {n i : Nat} {cs : List Char} {x y b : UInt8} {rest : List UInt8}
    (henc : encode cs = x :: y :: rest) (h : fromStrRadix16 [x, y] = .ok b) :
    ∃ cs', rest = encode cs' ∧ hexSlots (n + 1) i (encode cs) =
      match hexSlots n (i + 1) rest with
      | some (.ok out) => some (.ok (b :: out))
      | r => r := by
  obtain ⟨hx, hy⟩ := ascii_of_number h
  obtain ⟨cs₁, h₁⟩ := encode_cons_ascii hx henc
  obtain ⟨cs₂, h₂⟩ := encode_cons_ascii hy h₁.symm
  refine ⟨cs₂, h₂, ?_⟩
  have hb := charBoundary_encode cs
  have hb' := charBoundary_encode cs₂
  rw [← h₂] at hb'
  rw [henc] at hb ⊢
  rw [hexSlots]
  rcases hr : hexSlots n (i + 1) rest with _ | _ | _ <;>
    simp only [List.drop_succ_cons, List.drop_zero, List.take_succ_cons, List.take_zero, hb, hb', h,
      hr, Bool.and_self, if_true]

/-- At the first slot that is no number, the loop ends. -/
theorem hexSlots_stop {n i : Nat} {cs : List Char} {x y : UInt8} {rest : List UInt8}
    (henc : encode cs = x :: y :: rest) {e : Kit.IntErrorKind}
    (h : fromStrRadix16 [x, y] = .error e) : hexSlots (n + 1) i (encode cs) =
      if charBoundary rest = true then some (.error s!"bad hex at byte {i}: {e.message}")
      else none := by
  have hb := charBoundary_encode cs
  rw [henc] at hb ⊢
  rw [hexSlots]
  simp only [List.drop_succ_cons, List.drop_zero, List.take_succ_cons, List.take_zero, hb, h,
    Bool.true_and]

/-- The loop ends in an error exactly if it stops at a clean cut. -/
theorem hexSlots_error_iff {n i : Nat} {cs : List Char} (hlen : (encode cs).length = 2 * n) :
    (∃ e, hexSlots n i (encode cs) = some (.error e)) ↔ StopsClean n (encode cs) := by
  induction n generalizing i cs with
  | zero => simp [hexSlots, StopsClean]
  | succ n ih =>
    obtain ⟨x, y, rest, henc⟩ : ∃ x y rest, encode cs = x :: y :: rest := by
      obtain ⟨x, tail, hx⟩ := List.exists_cons_of_length_eq_add_one hlen
      rw [hx, List.length_cons] at hlen
      obtain ⟨y, rest, rfl⟩ := List.exists_cons_of_length_eq_add_one (Nat.succ.inj hlen)
      exact ⟨x, y, rest, hx⟩
    cases h : fromStrRadix16 [x, y] with
    | ok b =>
      obtain ⟨cs', hrest, hslots⟩ := hexSlots_number (n := n) (i := i) henc h
      have hlen' : (encode cs').length = 2 * n := by
        rw [henc, List.length_cons, List.length_cons, hrest] at hlen
        omega
      have htail := ih (i := i + 1) hlen'
      rw [hslots, henc, StopsClean]
      simp only [List.take_succ_cons, List.take_zero, List.drop_succ_cons, List.drop_zero, h,
        Except.isOk, Except.toBool, if_true, hrest]
      rw [← htail]
      constructor
      · rintro ⟨e, he⟩
        split at he
        · cases he
        · exact ⟨e, he⟩
      · rintro ⟨e, he⟩
        exact ⟨e, by rw [he]⟩
    | error e =>
      rw [hexSlots_stop henc h, henc, StopsClean]
      simp only [List.take_succ_cons, List.take_zero, List.drop_succ_cons, List.drop_zero, h,
        Except.isOk, Except.toBool, Bool.false_eq_true, if_false]
      split <;> simp [*]

/-- Hex digits spell their bytes. -/
theorem hexSlots_digits {n i : Nat} {cs : List Char} (hlen : cs.length = 2 * n)
    (hd : ∀ c ∈ cs, isHexDigit c) :
    hexSlots n i (encode cs) = some (.ok (spelled cs)) := by
  induction n generalizing i cs with
  | zero =>
    obtain rfl := List.length_eq_zero_iff.mp hlen
    rfl
  | succ n ih =>
    match cs, hlen with
    | a :: b :: cs, hlen =>
      obtain ⟨ha, hplus, hda⟩ := encode_hexDigit (hd a (by simp))
      obtain ⟨hb, -, hdb⟩ := encode_hexDigit (hd b (by simp))
      have henc : encode (a :: b :: cs) =
          UInt8.ofNat a.toNat :: UInt8.ofNat b.toNat :: encode cs := by
        rw [Kit.Utf8.encode_cons, Kit.Utf8.encode_cons, ha, hb]
        rfl
      have hnum : fromStrRadix16 [UInt8.ofNat a.toNat, UInt8.ofNat b.toNat] =
          .ok (UInt8.ofNat (16 * digitValue a + digitValue b)) := by
        simp only [fromStrRadix16, if_neg hplus, hda, hdb]
      have hlen' : cs.length = 2 * n := by
        rw [List.length_cons, List.length_cons] at hlen
        omega
      obtain ⟨-, -, hslots⟩ := hexSlots_number (n := n) (i := i) henc hnum
      rw [hslots, ih hlen' fun c hc => hd c (by simp [hc])]
      rfl

/-! ### The whole text -/

theorem parseHex32_of_length {s : String} (h : (encode (stripPrefix0x s.toList)).length ≠ 64) :
    ∃ e, parseHex32 s = some (.error e) := ⟨_, if_pos h⟩

theorem parseHex32_eq_ok {s : String} {out : List UInt8}
    (hlen : (encode (stripPrefix0x s.toList)).length = 64)
    (h : hexSlots 32 0 (encode (stripPrefix0x s.toList)) = some (.ok out)) :
    ∃ b : Bytes32, parseHex32 s = some (.ok b) ∧ b.toList = out := by
  unfold parseHex32
  rw [if_neg (by simpa using hlen)]
  split
  · rename_i h'; rw [h] at h'; cases h'
  · rename_i h'; rw [h] at h'; cases h'
  · rename_i out' h'; rw [h] at h'; cases h'; exact ⟨_, rfl, rfl⟩

theorem parseHex32_error_iff {s : String}
    (hlen : (encode (stripPrefix0x s.toList)).length = 64) :
    (∃ e, parseHex32 s = some (.error e)) ↔
      ∃ e, hexSlots 32 0 (encode (stripPrefix0x s.toList)) = some (.error e) := by
  unfold parseHex32
  rw [if_neg (by simpa using hlen)]
  split
  · rename_i h'; simp [h']
  · rename_i e h'; simp [h']
  · rename_i out h'; simp [h']

theorem length_encode_digits {cs : List Char} (h : ∀ c ∈ cs, isHexDigit c) :
    (encode cs).length = cs.length := by
  induction cs with
  | nil => rfl
  | cons c cs ih =>
    rw [Kit.Utf8.encode_cons, (encode_hexDigit (h c List.mem_cons_self)).1, List.length_append,
      ih fun d hd => h d (List.mem_cons_of_mem _ hd), List.length_singleton, List.length_cons,
      Nat.add_comm]

/-- Printed, the bytes that digits spell are the digits in lower case. -/
theorem flatMap_spelled {n : Nat} {cs : List Char} (hlen : cs.length = 2 * n)
    (h : ∀ c ∈ cs, isHexDigit c) : (spelled cs).flatMap hexByte = cs.map Char.toLower := by
  induction n generalizing cs with
  | zero =>
    obtain rfl := List.length_eq_zero_iff.mp hlen
    rfl
  | succ n ih =>
    match cs, hlen with
    | a :: b :: cs, hlen =>
      obtain ⟨ha, ha'⟩ := digitChar_digitValue (h a (by simp))
      obtain ⟨hb, hb'⟩ := digitChar_digitValue (h b (by simp))
      have hlen' : cs.length = 2 * n := by
        rw [List.length_cons, List.length_cons] at hlen
        omega
      have hbyte : (UInt8.ofNat (16 * digitValue a + digitValue b)).toNat =
          16 * digitValue a + digitValue b := by
        rw [UInt8.toNat_ofNat', Nat.mod_eq_of_lt (by omega)]
      have hhigh : (16 * digitValue a + digitValue b) / 16 = digitValue a := by omega
      have hlow : (16 * digitValue a + digitValue b) % 16 = digitValue b := by omega
      rw [spelled, List.flatMap_cons, ih hlen' fun c hc => h c (by simp [hc]), hexByte, hbyte,
        hhigh, hlow, ha', hb']
      rfl

theorem parseHex32_hex {s : String} (h : Hex32 (stripPrefix0x s.toList)) :
    ∃ b : Bytes32, parseHex32 s = some (.ok b) ∧ b.toList = spelled (stripPrefix0x s.toList) ∧
      (hex32 b).toList = (stripPrefix0x s.toList).map Char.toLower := by
  obtain ⟨hlen, hd⟩ := h
  have hslots := hexSlots_digits (n := 32) (i := 0) hlen hd
  obtain ⟨b, hb, hout⟩ := parseHex32_eq_ok ((length_encode_digits hd).trans hlen) hslots
  refine ⟨b, hb, hout, ?_⟩
  rw [hex32, String.toList_ofList, hout, flatMap_spelled (n := 32) hlen hd]

/-- For every text: it is accepted, read and rejected as the grammar says if and only if, behind an
optional `0x`, it has not 64 bytes, or is 64 hex digits, or its first slot that is no number ends
where a character ends. And what `hex32` prints always reads back. -/
theorem followsGrammar_iff (s : String) :
    (FollowsGrammar s ↔
      (encode (stripPrefix0x s.toList)).length ≠ 64 ∨ Hex32 (stripPrefix0x s.toList) ∨
        StopsClean 32 (encode (stripPrefix0x s.toList))) ∧
    ∀ b, parseHex32 (hex32 b) = some (.ok b) := by
  refine ⟨?_, parseHex32_hex32⟩
  constructor
  · rintro ⟨-, hreject⟩
    by_cases hhex : Hex32 (stripPrefix0x s.toList)
    · exact .inr (.inl hhex)
    by_cases hlen : (encode (stripPrefix0x s.toList)).length = 64
    · have herror := (parseHex32_error_iff hlen).mp (hreject hhex)
      exact .inr (.inr ((hexSlots_error_iff (n := 32) hlen).mp herror))
    · exact .inl hlen
  · intro h
    refine ⟨parseHex32_hex, fun hhex => ?_⟩
    by_cases hlen : (encode (stripPrefix0x s.toList)).length = 64
    · have hstop := (h.resolve_left (not_not.mpr hlen)).resolve_left hhex
      exact (parseHex32_error_iff hlen).mpr ((hexSlots_error_iff (n := 32) hlen).mpr hstop)
    · exact parseHex32_of_length hlen

/-- 64 bytes, of which the third is in the middle of a character. -/
def straddling : String := String.ofList ('0' :: 'é' :: List.replicate 61 '0')

theorem straddling_panics : ¬ ∀ s, FollowsGrammar s := by
  intro h
  have hno : ¬ Hex32 (stripPrefix0x straddling.toList) := by
    rintro ⟨hlen, -⟩
    exact absurd hlen (by decide)
  have hpanic : parseHex32 straddling = none := by decide +kernel
  obtain ⟨e, he⟩ := (h straddling).2 hno
  rw [hpanic] at he
  cases he

end Tock
end Nockmark
