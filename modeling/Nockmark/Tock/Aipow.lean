import Nockmark.Kit.Bytes
import Nockmark.Kit.Decimal
import Nockmark.Kit.Utf8

/-!
# Tock.Aipow

The wire forms of the AI track (`tock/src/aipow.rs`): 32-byte values as hex text, extranonces as
eight little-endian bytes.

`parseHex32` slices the text by bytes, so a character of several bytes in the wrong place makes
it panic; `none` is that panic.

* `parseHex32_hex32`: the hex of a value reads back as the value.
* `nonceExtranonce_eq_some`: eight bytes are the nonce of one extranonce.
-/

namespace Nockmark
namespace Tock

open Kit (IntErrorKind)
open Kit.Utf8 (encode)

abbrev Bytes32 := Kit.Block 32

/-- Both values read as little-endian 256-bit integers. -/
def hashLeTarget (hash target : Bytes32) : Bool := decide (hash.toNat ≤ target.toNat)

/-- `AI_NONCE_RULE`: the extranonce as exactly 8 little-endian bytes. -/
def extranonceNonce (extranonce : UInt64) : List UInt8 := Kit.leBytes 8 extranonce.toNat

def nonceExtranonce (nonce : List UInt8) : Option UInt64 :=
  if nonce.length = 8 then some (UInt64.ofNat (Kit.leNat nonce)) else none

theorem nonceExtranonce_eq_some {nonce : List UInt8} {x : UInt64} :
    nonceExtranonce nonce = some x ↔ nonce = extranonceNonce x := by
  unfold nonceExtranonce extranonceNonce
  constructor
  · intro h
    split at h
    · rename_i hl
      have hlt := Kit.leNat_lt nonce
      rw [hl] at hlt
      cases h
      rw [UInt64.toNat_ofNat', Nat.mod_eq_of_lt (by simpa using hlt), ← hl, Kit.leBytes_leNat]
    · cases h
  · rintro rfl
    rw [if_pos (Kit.length_leBytes 8 _), Kit.leNat_leBytes (by simpa using x.toNat_lt),
      UInt64.ofNat_toNat]

/-! ### Hex text -/

/-- `b` may begin a character: it is no UTF-8 continuation byte. -/
def leadByte (b : UInt8) : Bool := decide (b < 0x80) || decide (0xC0 ≤ b)

/-- The text that is left can be sliced here. -/
def charBoundary (bs : List UInt8) : Bool := bs.head?.all leadByte

/-- The first byte of a character leads, and none after it does. -/
theorem leadByte_encodeChar (c : Char) : ∃ b bs, String.utf8EncodeChar c = b :: bs ∧
    leadByte b = true ∧ ∀ x ∈ bs, leadByte x = false := by
  have lead : ∀ {n : Nat}, n < 128 ∨ 192 ≤ n ∧ n < 256 → leadByte (UInt8.ofNat n) = true := by
    intro n hn
    simp only [leadByte, UInt8.lt_iff_toNat_lt, UInt8.le_iff_toNat_le, UInt8.toNat_ofNat']
    simp
    omega
  have follow : ∀ n : Nat, leadByte (UInt8.ofNat (n % 64 + 128)) = false := by
    intro n
    simp only [leadByte, UInt8.lt_iff_toNat_lt, UInt8.le_iff_toNat_le, UInt8.toNat_ofNat']
    simp
    omega
  have none_left : ∀ x ∈ ([] : List UInt8), leadByte x = false := by simp
  simp only [String.utf8EncodeChar]
  split
  · exact ⟨_, _, rfl, lead (by omega), none_left⟩
  split
  · exact ⟨_, _, rfl, lead (by omega), List.forall_mem_cons.mpr ⟨follow _, none_left⟩⟩
  split
  · exact ⟨_, _, rfl, lead (by omega), List.forall_mem_cons.mpr ⟨follow _,
      List.forall_mem_cons.mpr ⟨follow _, none_left⟩⟩⟩
  · exact ⟨_, _, rfl, lead (by omega), List.forall_mem_cons.mpr ⟨follow _,
      List.forall_mem_cons.mpr ⟨follow _, List.forall_mem_cons.mpr ⟨follow _, none_left⟩⟩⟩⟩

/-- Text can be cut at its beginning. -/
theorem charBoundary_encode (cs : List Char) : charBoundary (encode cs) = true := by
  cases cs with
  | nil => rfl
  | cons c cs =>
    obtain ⟨b, bs, hc, hb, -⟩ := leadByte_encodeChar c
    rw [Kit.Utf8.encode_cons, hc, List.cons_append, charBoundary, List.head?_cons,
      Option.all_some, hb]

/-- `char::to_digit(16)`, of a byte. -/
def hexDigit (b : UInt8) : Option Nat :=
  if 48 ≤ b.toNat ∧ b.toNat ≤ 57 then some (b.toNat - 48)
  else if 97 ≤ b.toNat ∧ b.toNat ≤ 102 then some (b.toNat - 87)
  else if 65 ≤ b.toNat ∧ b.toNat ≤ 70 then some (b.toNat - 55)
  else none

/-- `u8::from_str_radix(_, 16)` of at most two bytes, which cannot overflow. A lone sign is no
digit; a plus sign before a digit is skipped. -/
def fromStrRadix16 : List UInt8 → Except IntErrorKind UInt8
  | [] => .error .Empty
  | [a] =>
    match hexDigit a with
    | some x => .ok (UInt8.ofNat x)
    | none => .error .InvalidDigit
  | a :: b :: _ =>
    if a = 43 then
      match hexDigit b with
      | some y => .ok (UInt8.ofNat y)
      | none => .error .InvalidDigit
    else
      match hexDigit a, hexDigit b with
      | some x, some y => .ok (UInt8.ofNat (16 * x + y))
      | _, _ => .error .InvalidDigit

/-- The slot loop: `n` slots are left, the next is slot `i`. -/
def hexSlots : Nat → Nat → List UInt8 → Option (Except String (List UInt8))
  | 0, _, _ => some (.ok [])
  | n + 1, i, bs =>
    if charBoundary bs && charBoundary (bs.drop 2) then
      match fromStrRadix16 (bs.take 2) with
      | .error e => some (.error s!"bad hex at byte {i}: {e.message}")
      | .ok b =>
        match hexSlots n (i + 1) (bs.drop 2) with
        | some (.ok out) => some (.ok (b :: out))
        | r => r
    else none

theorem hexSlots_length {n i : Nat} {bs out : List UInt8}
    (h : hexSlots n i bs = some (.ok out)) : out.length = n := by
  induction n generalizing i bs out with
  | zero => cases h; rfl
  | succ n ih =>
    unfold hexSlots at h
    split at h
    · split at h
      · cases h
      · split at h
        · rename_i hr; cases h; rw [List.length_cons, ih hr]
        · rename_i hne; exact absurd h (hne _)
    · cases h

def stripPrefix0x : List Char → List Char
  | '0' :: 'x' :: cs => cs
  | cs => cs

def parseHex32 (s : String) : Option (Except String Bytes32) :=
  let bs := Kit.Utf8.encode (stripPrefix0x s.toList)
  if bs.length ≠ 64 then
    some (.error s!"expected 64 hex chars (32 bytes), got {bs.length}")
  else
    match h : hexSlots 32 0 bs with
    | none => none
    | some (.error e) => some (.error e)
    | some (.ok out) => some (.ok ⟨out, hexSlots_length h⟩)

/-- `{b:02x}` -/
def hexByte (b : UInt8) : List Char := [Nat.digitChar (b.toNat / 16), Nat.digitChar (b.toNat % 16)]

def hex32 (bytes : Bytes32) : String := String.ofList (bytes.toList.flatMap hexByte)

theorem encode_digitChar : ∀ d < 16, ∃ c, String.utf8EncodeChar (Nat.digitChar d) = [c] ∧
    c ≠ 43 ∧ hexDigit c = some d := by
  intro d hd
  have h : ∀ d < 16, String.utf8EncodeChar (Nat.digitChar d) =
        [UInt8.ofNat (Nat.digitChar d).toNat] ∧
      UInt8.ofNat (Nat.digitChar d).toNat ≠ 43 ∧
      hexDigit (UInt8.ofNat (Nat.digitChar d).toNat) = some d := by decide
  exact ⟨_, h d hd⟩

theorem encode_hexByte (b : UInt8) : ∃ x y, Kit.Utf8.encode (hexByte b) = [x, y] ∧
    fromStrRadix16 [x, y] = .ok b := by
  have hb := b.toNat_lt
  obtain ⟨x, hx, hpx, hdx⟩ := encode_digitChar (b.toNat / 16) (by omega)
  obtain ⟨y, hy, -, hdy⟩ := encode_digitChar (b.toNat % 16) (by omega)
  refine ⟨x, y, ?_, ?_⟩
  · rw [hexByte, Kit.Utf8.encode_cons, Kit.Utf8.encode_cons, hx, hy]; rfl
  · have hv : 16 * (b.toNat / 16) + b.toNat % 16 = b.toNat := by omega
    simp only [fromStrRadix16, if_neg hpx, hdx, hdy, hv, UInt8.ofNat_toNat]

theorem hexSlots_hexBytes (out : List UInt8) (i : Nat) :
    hexSlots out.length i (Kit.Utf8.encode (out.flatMap hexByte)) = some (.ok out) := by
  induction out generalizing i with
  | nil => rfl
  | cons b out ih =>
    have hb := charBoundary_encode ((b :: out).flatMap hexByte)
    obtain ⟨x, y, hxy, hok⟩ := encode_hexByte b
    rw [List.flatMap_cons, Kit.Utf8.encode_append, hxy] at hb ⊢
    rw [List.length_cons, hexSlots]
    simp only [List.cons_append, List.nil_append, List.drop_succ_cons, List.drop_zero,
      List.take_succ_cons, List.take_zero] at hb ⊢
    rw [hb, charBoundary_encode, hok, ih (i + 1)]
    rfl

theorem length_encode_hexBytes (out : List UInt8) :
    (Kit.Utf8.encode (out.flatMap hexByte)).length = 2 * out.length := by
  induction out with
  | nil => rfl
  | cons b out ih =>
    obtain ⟨x, y, hxy, -⟩ := encode_hexByte b
    rw [List.flatMap_cons, Kit.Utf8.encode_append, hxy, List.length_append, ih,
      List.length_cons]
    simp only [List.length_cons, List.length_nil]
    omega

theorem stripPrefix0x_hexBytes (out : List UInt8) :
    stripPrefix0x (out.flatMap hexByte) = out.flatMap hexByte := by
  cases out with
  | nil => rfl
  | cons b out =>
    have hx : ∀ d < 16, Nat.digitChar d ≠ 'x' := by decide
    have hne := hx (b.toNat % 16) (by omega)
    unfold stripPrefix0x
    split
    · rename_i heq
      simp only [List.flatMap_cons, hexByte, List.cons_append, List.cons.injEq] at heq
      exact absurd heq.2.1 hne
    · rfl

theorem parseHex32_hex32 (b : Bytes32) : parseHex32 (hex32 b) = some (.ok b) := by
  have hs : stripPrefix0x (hex32 b).toList = b.toList.flatMap hexByte := by
    rw [hex32, String.toList_ofList, stripPrefix0x_hexBytes]
  have hl := length_encode_hexBytes b.toList
  have hr := hexSlots_hexBytes b.toList 0
  rw [b.length_eq, ← hs] at hl hr
  unfold parseHex32
  rw [if_neg (by rw [hl]; simp)]
  split
  · rename_i h; rw [hr] at h; cases h
  · rename_i h; rw [hr] at h; cases h
  · rename_i out h; rw [hr] at h; cases h; rfl

end Tock
end Nockmark
