import Nockmark.Kit.Budget
import Nockmark.Kit.Decimal
import Nockmark.Tock.Aipow

/-!
# Tock.Hardware

The hardware descriptor of a submission (`tock/src/client.rs`, `tock/src/main.rs`): the host's
summary, with a GPU's name before it, cut to 128 bytes at the end of a character.

`none` is a panic: of the scan for a place to cut, or of a cut within a character.

* `isCharBoundary_iff`: text can be cut just where a prefix of it ends.
* `capBytes_eq`: the scan ends, and what it leaves is the longest prefix of the allowed size.
* `hardwareSummaryWithDevice_eq`: the host is cut twice, as if once.
-/

namespace Nockmark
namespace Tock

open Kit.Budget (fit weight scanDown)
open Kit.Utf8 (encode)

/-- What the descriptor reads of a host. -/
structure Hardware where
  cpuModel : Option String
  logicalCores : Option UInt64
  memBytes : Option UInt64
  os : String
  arch : String

/-- `str::is_char_boundary` -/
def isCharBoundary (s : String) (n : Nat) : Bool :=
  decide (n ≤ (encode s.toList).length) && charBoundary ((encode s.toList).drop n)

/-- The text before byte `cut`. -/
def sliceTo (s : String) (cut : Nat) : Option String :=
  (Kit.Utf8.decode? ((encode s.toList).take cut)).map String.ofList

/-- Cut down to `max` bytes, from there back to the next boundary. -/
def capBytes (max : Nat) (s : String) : Option String :=
  if s.utf8ByteSize ≤ max then some s
  else (scanDown (isCharBoundary s) max).bind (sliceTo s)

def cap128 (s : String) : Option String := capBytes 128 s

def hardwareParts (hw : Hardware) : List String :=
  [hw.cpuModel.getD "unknown CPU"] ++
    (hw.logicalCores.map fun c => Kit.dec c.toNat ++ "c").toList ++
    (hw.memBytes.map fun b : UInt64 => Kit.dec (b >>> 30).toNat ++ "GB").toList ++
    [hw.os, hw.arch]

/-- The summary before it is cut. -/
def hostText (hw : Hardware) : String := " / ".intercalate (hardwareParts hw)

/-- It has the loop of `cap_128` over again. -/
def hardwareSummary (hw : Hardware) : Option String := capBytes 128 (hostText hw)

def hardwareSummaryWithDevice (device : Option String) (hw : Hardware) : Option String :=
  (hardwareSummary hw).bind fun host =>
    match device with
    | none => some host
    | some device => cap128 (device ++ " · host " ++ host)

/-- Which backend grinds; what the GPU's driver calls it. -/
inductive Backend where
  | cpu
  | gpu (deviceDescriptor : Option String)

def Backend.hardwareDescriptor (b : Backend) (hw : Hardware) : Option String :=
  match b with
  | .cpu => hardwareSummary hw
  | .gpu device => hardwareSummaryWithDevice device hw

/-! ### Where text can be cut -/

theorem length_encode (cs : List Char) : (encode cs).length = weight Char.utf8Size cs := by
  induction cs with
  | nil => rfl
  | cons c cs ih => simp [ih]

theorem utf8ByteSize_eq (s : String) : s.utf8ByteSize = weight Char.utf8Size s.toList := by
  have h := congrArg String.utf8ByteSize (@String.ofList_toList s)
  rw [← h, ← length_encode, ← String.size_toByteArray, String.toByteArray_ofList, List.utf8Encode,
    List.size_toByteArray]
  rfl

/-- Text can be sliced where a prefix of it ends, and nowhere else. -/
theorem charBoundary_iff {cs : List Char} {n : Nat} (hn : n ≤ (encode cs).length) :
    charBoundary ((encode cs).drop n) = true ↔ ∃ q, q <+: cs ∧ (encode q).length = n := by
  induction cs generalizing n with
  | nil =>
    obtain rfl : n = 0 := Nat.le_zero.mp hn
    exact ⟨fun _ => ⟨[], List.prefix_rfl, rfl⟩, fun _ => rfl⟩
  | cons c cs ih =>
    obtain ⟨b, bs, hc, -, hbs⟩ := leadByte_encodeChar c
    rw [Kit.Utf8.encode_cons, List.length_append] at hn
    rw [Kit.Utf8.encode_cons]
    rcases Nat.eq_zero_or_pos n with rfl | hpos
    · rw [List.drop_zero, ← Kit.Utf8.encode_cons]
      exact ⟨fun _ => ⟨[], List.nil_prefix, rfl⟩, fun _ => charBoundary_encode (c :: cs)⟩
    rcases Nat.lt_or_ge n (String.utf8EncodeChar c).length with hlt | hge
    · -- inside the first character no byte leads and no prefix ends
      have hin : charBoundary ((String.utf8EncodeChar c ++ encode cs).drop n) = false := by
        rw [List.drop_append_of_le_length (Nat.le_of_lt hlt), List.drop_eq_getElem_cons hlt]
        refine hbs _ ?_
        obtain ⟨m, rfl⟩ := Nat.exists_eq_add_one_of_ne_zero (Nat.ne_of_gt hpos)
        simp only [hc, List.getElem_cons_succ]
        exact List.getElem_mem _
      rw [hin]
      constructor
      · intro h
        cases h
      · rintro ⟨q, hq, hlen⟩
        cases q with
        | nil =>
          simp at hlen
          omega
        | cons d q =>
          obtain ⟨rfl, -⟩ := List.cons_prefix_cons.mp hq
          rw [Kit.Utf8.encode_cons, List.length_append] at hlen
          omega
    · rw [List.drop_append, List.drop_eq_nil_of_le hge, List.nil_append, ih (by omega)]
      constructor
      · rintro ⟨q, hq, hlen⟩
        refine ⟨c :: q, (List.prefix_cons_inj c).mpr hq, ?_⟩
        rw [Kit.Utf8.encode_cons, List.length_append, hlen]
        omega
      · rintro ⟨q, hq, hlen⟩
        cases q with
        | nil =>
          simp at hlen
          omega
        | cons d q =>
          obtain ⟨rfl, htail⟩ := List.cons_prefix_cons.mp hq
          rw [Kit.Utf8.encode_cons, List.length_append] at hlen
          exact ⟨q, htail, by omega⟩

theorem isCharBoundary_iff (s : String) (n : Nat) :
    isCharBoundary s n = true ↔ ∃ q, q <+: s.toList ∧ weight Char.utf8Size q = n := by
  simp only [isCharBoundary, Bool.and_eq_true, decide_eq_true_eq, ← length_encode]
  constructor
  · rintro ⟨hn, hb⟩
    exact (charBoundary_iff hn).mp hb
  · rintro ⟨q, hq, rfl⟩
    have hn : (encode q).length ≤ (encode s.toList).length := by
      simpa only [length_encode] using Kit.Budget.weight_le_of_prefix _ hq
    exact ⟨hn, (charBoundary_iff hn).mpr ⟨q, hq, rfl⟩⟩

/-! ### The cut -/

/-- The scan starts at `max` and ends with the longest prefix. -/
theorem scanDown_isCharBoundary (s : String) (max : Nat) :
    scanDown (isCharBoundary s) max =
      some (weight Char.utf8Size (fit Char.utf8Size max s.toList)) := by
  apply Kit.Budget.scanDown_eq
  · exact (isCharBoundary_iff s _).mpr ⟨_, Kit.Budget.fit_isPrefix _ max s.toList, rfl⟩
  · exact Kit.Budget.weight_fit_le _ max s.toList
  · intro i hi hmax
    obtain ⟨q, hq, rfl⟩ := (isCharBoundary_iff s i).mp hi
    exact Kit.Budget.weight_le_of_prefix _ (Kit.Budget.prefix_fit _ hq hmax)

theorem sliceTo_isPrefix {s : String} {q : List Char} (hq : q <+: s.toList) :
    sliceTo s (weight Char.utf8Size q) = some (String.ofList q) := by
  obtain ⟨r, hr⟩ := hq
  rw [sliceTo, ← hr, Kit.Utf8.encode_append, ← length_encode, List.take_left,
    Kit.Utf8.decode?_encode, Option.map_some]

theorem capBytes_eq (max : Nat) (s : String) :
    capBytes max s = some (String.ofList (fit Char.utf8Size max s.toList)) := by
  rw [capBytes]
  split
  · rename_i h
    rw [utf8ByteSize_eq] at h
    rw [Kit.Budget.fit_of_weight_le _ h, String.ofList_toList]
  · rw [scanDown_isCharBoundary, Option.bind_some, sliceTo_isPrefix (Kit.Budget.fit_isPrefix _ _ _)]

/-- `r` is the longest prefix of `s` of at most `max` bytes that ends where a character does. -/
structure LongestPrefix (max : Nat) (s r : String) : Prop where
  bytes : encode r.toList = (encode s.toList).take r.utf8ByteSize
  boundary : isCharBoundary s r.utf8ByteSize = true
  fits : r.utf8ByteSize ≤ max
  longest : ∀ n ≤ max, isCharBoundary s n = true → n ≤ r.utf8ByteSize

theorem LongestPrefix.unique {max : Nat} {s r r' : String} (h : LongestPrefix max s r)
    (h' : LongestPrefix max s r') : r = r' := by
  have hsize : r.utf8ByteSize = r'.utf8ByteSize :=
    Nat.le_antisymm (h'.longest _ h.fits h.boundary) (h.longest _ h'.fits h'.boundary)
  have hbytes : encode r.toList = encode r'.toList := by rw [h.bytes, h'.bytes, hsize]
  exact String.toList_inj.mp (Kit.Utf8.encode_injective hbytes)

/-- In characters and in bytes. -/
theorem longestPrefix_of_longest {max : Nat} {s r : String}
    (h : Kit.Budget.Longest Char.utf8Size max s.toList r.toList) : LongestPrefix max s r := by
  constructor
  case bytes =>
    obtain ⟨q, hq⟩ := h.isPrefix
    rw [← hq, Kit.Utf8.encode_append, utf8ByteSize_eq, ← length_encode, List.take_left]
  case boundary => exact (isCharBoundary_iff s _).mpr ⟨_, h.isPrefix, (utf8ByteSize_eq r).symm⟩
  case fits =>
    rw [utf8ByteSize_eq]
    exact h.fits
  case longest =>
    intro n hn hb
    obtain ⟨q, hq, rfl⟩ := (isCharBoundary_iff s n).mp hb
    rw [utf8ByteSize_eq]
    exact Kit.Budget.weight_le_of_prefix _ (h.longest q hq hn)

theorem capBytes_longest (max : Nat) (s : String) :
    ∃ r, capBytes max s = some r ∧ LongestPrefix max s r := by
  refine ⟨_, capBytes_eq max s, longestPrefix_of_longest ?_⟩
  rw [String.toList_ofList]
  exact Kit.Budget.longest_fit _ max s.toList

/-! ### The descriptor -/

/-- Cutting the host first makes no difference: what it loses is beyond the second cut. -/
theorem hardwareSummaryWithDevice_eq (device : String) (hw : Hardware) :
    hardwareSummaryWithDevice (some device) hw = cap128 (device ++ " · host " ++ hostText hw) := by
  simp only [hardwareSummaryWithDevice, hardwareSummary, cap128, capBytes_eq, Option.bind_some,
    String.toList_append, String.toList_ofList]
  rw [Kit.Budget.fit_append_fit _ (by omega)]

/-- The descriptor before it is cut. -/
def Backend.descriptorText (b : Backend) (hw : Hardware) : String :=
  match b with
  | .gpu (some device) => device ++ " · host " ++ hostText hw
  | _ => hostText hw

theorem hardwareDescriptor_longest (b : Backend) (hw : Hardware) :
    ∃ s, b.hardwareDescriptor hw = some s ∧ LongestPrefix 128 (b.descriptorText hw) s := by
  rcases b with _ | _ | device
  · exact capBytes_longest 128 (hostText hw)
  · obtain ⟨s, hs, hl⟩ := capBytes_longest 128 (hostText hw)
    refine ⟨s, ?_, hl⟩
    rw [Backend.hardwareDescriptor, hardwareSummaryWithDevice, hardwareSummary, hs]
    rfl
  · rw [Backend.hardwareDescriptor, hardwareSummaryWithDevice_eq]
    exact capBytes_longest 128 _

end Tock
end Nockmark
