import Mathlib.Algebra.Order.Floor.Semifield
import Mathlib.Data.Rat.Floor
import Nockmark.Kit.Json
import Nockmark.Kit.Lines
import Nockmark.Kit.Spread
import Nockmark.Kit.Utf8

/-!
# Registry.Economics

`read_history` (`registry/src/economics.rs`): the difficulty observations of a file, one JSON
object per line, from an instant on, thinned to at most `cap` points.

The JSON library is a parameter: what it makes of a line does not matter. Fractions are exact.
`none` is a panic: an index out of bounds, or no last point.

* `sampleIndex_eq`: the sampled indices are spread evenly.
* `thin_of_lt`: so no index is out of bounds.
* `history_faithful`: what is returned are points at ascending positions, the newest among them.
-/

namespace Nockmark
namespace Registry

/-- What is used of `serde_json`: a parser, `v[key]`, `as_u64` and `as_f64`. -/
structure HistoryJson (V F : Type) where
  fromStr : List Char → Option V
  index : V → String → V
  asU64 : V → Option UInt64
  asF64 : V → Option F

inductive FileError where
  | notFound
  | invalidData
  | other (text : String)
deriving DecidableEq, Repr

def readToString (file : Except FileError (List UInt8)) : Except FileError (List Char) := do
  match Kit.Utf8.decode? (← file) with
  | some raw => .ok raw
  | none => .error .invalidData

variable {V F α : Type}

/-- The parsable points from `since` on, in file order. -/
def historyPoints (json : HistoryJson V F) (raw : List Char) (since : UInt64) :
    List (UInt64 × F) :=
  (((Kit.Lines.lines raw).filterMap json.fromStr).filterMap fun v => do
    some (← json.asU64 (json.index v "t"), ← json.asF64 (json.index v "difficulty"))).filter
      fun p => since ≤ p.1

/-- `(i as f64 * step) as usize` -/
def sampleIndex (len cap i : Nat) : Nat :=
  let step : ℚ := len / (cap - 1 : Nat)
  ⌊i * step⌋₊

def thin (pts : List α) (cap : Nat) : Option (List α) :=
  if pts.length ≤ cap ∨ cap = 0 then some pts
  else do
    let last ← pts.getLast?
    let out ← (List.range (cap - 1)).mapM fun i => pts[sampleIndex pts.length cap i]?
    some (out ++ [last])

def readHistory (json : HistoryJson V F) (file : Except FileError (List UInt8))
    (since : UInt64) (cap : Nat) : Option (Except FileError (List (UInt64 × F))) :=
  match readToString file with
  | .error .notFound => some (.ok [])
  | .error e => some (.error e)
  | .ok raw => (thin (historyPoints json raw since) cap).map .ok

theorem sampleIndex_eq (len cap i : Nat) :
    sampleIndex len cap i = Kit.Spread.position len (cap - 1) i := by
  rw [sampleIndex, Kit.Spread.position, ← Nat.floor_div_eq_div (K := ℚ), Nat.cast_mul,
    mul_div_assoc]

theorem getElem?_sampleIndex {pts : List α} {cap : Nat} (h : cap - 1 < pts.length)
    (i : Fin (cap - 1)) :
    pts[sampleIndex pts.length cap i]? = some (pts.get (Kit.Spread.pick h i)) := by
  rw [sampleIndex_eq]
  exact List.getElem?_eq_getElem (Kit.Spread.pick h i).isLt

theorem thin_of_lt {pts : List α} {cap : Nat} (hcap : 0 < cap) (h : cap < pts.length) :
    thin pts cap =
      some ((Kit.Spread.spread (show cap - 1 < pts.length by omega)).map pts.get) := by
  have hn : cap - 1 < pts.length := by omega
  have hne : pts ≠ [] := List.ne_nil_of_length_pos (by omega)
  have hpicks : (List.range (cap - 1)).mapM (fun i => pts[sampleIndex pts.length cap i]?) =
      some ((List.finRange (cap - 1)).map fun i => pts.get (Kit.Spread.pick hn i)) := by
    rw [← List.map_coe_finRange_eq_range, List.mapM_map]
    simp only [Function.comp_def, getElem?_sampleIndex hn]
    exact List.mapM_pure
  rw [thin, if_neg (by omega), List.getLast?_eq_some_getLast hne, hpicks]
  simp [Kit.Spread.spread, List.getLast_eq_getElem]

example : thin [10, 11, 12, 13, 14, 15, 16, 17, 18, 19] 4 = some [10, 13, 16, 19] := by
  decide +kernel

/-- Where nothing is thinned, every position is kept. -/
theorem thin_of_le {pts : List α} {cap : Nat} (h : pts.length ≤ cap) :
    thin pts cap = some ((List.finRange pts.length).map pts.get) := by
  rw [thin, if_pos (.inl h)]
  congr 1
  exact (List.map_get_finRange pts).symm

theorem readHistory_encode (json : HistoryJson V F) (raw : List Char) (since : UInt64)
    (cap : Nat) : readHistory json (.ok (Kit.Utf8.encode raw)) since cap =
      (thin (historyPoints json raw since) cap).map .ok := by
  have htext : readToString (.ok (Kit.Utf8.encode raw)) = .ok raw := by
    show (match Kit.Utf8.decode? (Kit.Utf8.encode raw) with
      | some raw => Except.ok raw
      | none => Except.error FileError.invalidData) = _
    rw [Kit.Utf8.decode?_encode]
  rw [readHistory, htext]

/-- For every text, instant and cap of at least one: what is returned are the parsable points
from the instant on, or as many of them as the cap allows, at ascending positions, the newest
among them and, where two points are allowed, the oldest. -/
theorem history_faithful (json : HistoryJson V F) (raw : List Char) (since : UInt64) {cap : Nat}
    (hcap : 1 ≤ cap) :
    let pts := historyPoints json raw since
    ∃ positions : List (Fin pts.length),
      readHistory json (.ok (Kit.Utf8.encode raw)) since cap =
        some (.ok (positions.map pts.get)) ∧
      positions.Pairwise (· < ·) ∧ positions.length = min cap pts.length ∧
      (∀ i : Fin pts.length, i + 1 = pts.length → i ∈ positions) ∧
      (2 ≤ cap → ∀ i : Fin pts.length, i.val = 0 → i ∈ positions) := by
  intro pts
  rcases Nat.lt_or_ge cap pts.length with h | h
  · have hn : cap - 1 < pts.length := by omega
    refine ⟨Kit.Spread.spread hn, ?_, Kit.Spread.spread_ascends hn, ?_, ?_, ?_⟩
    · rw [readHistory_encode, thin_of_lt hcap h]
      rfl
    · rw [Kit.Spread.length_spread]
      omega
    · intro i hi
      have heq : i = ⟨pts.length - 1, by omega⟩ := Fin.ext (show i.val = pts.length - 1 by omega)
      exact heq ▸ Kit.Spread.last_mem_spread hn
    · intro h2 i hi
      have heq : i = ⟨0, by omega⟩ := Fin.ext hi
      exact heq ▸ Kit.Spread.first_mem_spread hn (by omega)
  · refine ⟨List.finRange pts.length, ?_, List.pairwise_lt_finRange _, ?_, ?_, ?_⟩
    · rw [readHistory_encode, thin_of_le h]
      rfl
    · rw [List.length_finRange, Nat.min_eq_right h]
    · exact fun i _ => List.mem_finRange i
    · exact fun _ i _ => List.mem_finRange i

/-- The library over natural numbers only. -/
def HistoryJson.compact : HistoryJson Kit.Json.Value ℚ where
  fromStr := Kit.Json.parse
  index := Kit.Json.Value.index
  asU64 v := v.asNum.bind fun n => if n < 2 ^ 64 then some (UInt64.ofNat n) else none
  asF64 v := v.asNum.map fun n => (n : ℚ)

/-- Three lines, of which the torn one is skipped, and two of two points. -/
theorem history_faithful_tornLine :
    let raw := "\x7b\"t\":1,\"difficulty\":5\x7d\n".toList ++ "\x7b\"t\": 99\n".toList ++
      "\x7b\"t\":2,\"difficulty\":7\x7d\n".toList
    ∃ out, readHistory .compact (.ok (Kit.Utf8.encode raw)) 0 2 = some (.ok out) ∧
      out.length = 2 := by
  intro raw
  obtain ⟨positions, hread, -, hlen, -, -⟩ :=
    history_faithful .compact raw 0 (show 1 ≤ 2 by decide)
  have hpts : (historyPoints .compact raw 0).length = 2 := by decide +kernel
  exact ⟨_, hread, by rw [List.length_map, hlen, hpts]; rfl⟩

end Registry
end Nockmark
