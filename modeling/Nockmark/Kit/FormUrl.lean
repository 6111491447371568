import Nockmark.Kit.Json
import Nockmark.Kit.Utf8

/-!
# Kit.FormUrl

Reading `application/x-www-form-urlencoded` text: what stands between `&`s is a name and a value,
on either side of its first `=`, with `+` for a space and `%` before the two digits of a byte.

What bytes that are not UTF-8 are read as is a parameter, `lossy`.

* `pairs_render`: names and values of plain characters are read as they stand.
-/

namespace Kit
namespace FormUrl

open Kit.Json (hexVal)
open Kit.Utf8 (encode)

/-- The byte that two hexadecimal digits spell. -/
def hexPair (a b : Char) : Option UInt8 :=
  match hexVal a, hexVal b with
  | some x, some y => some (UInt8.ofNat (16 * x + y))
  | _, _ => none

/-- A `%` without two digits after it stands for itself. -/
def unescape : List Char → List UInt8
  | [] => []
  | '%' :: a :: b :: cs =>
    match hexPair a b with
    | some byte => byte :: unescape cs
    | none => encode ['%'] ++ unescape (a :: b :: cs)
  | c :: cs => encode [if c = '+' then ' ' else c] ++ unescape cs

/-- A name and a value; without a `=`, the value is empty. -/
def pair (lossy : List UInt8 → String) (cs : List Char) : String × String :=
  (lossy (unescape (cs.takeWhile (· ≠ '='))), lossy (unescape ((cs.dropWhile (· ≠ '=')).drop 1)))

/-- Nothing stands between two `&`s in a row. -/
def pairs (lossy : List UInt8 → String) (cs : List Char) : List (String × String) :=
  ((cs.splitOn '&').filter (· ≠ [])).map (pair lossy)

/-- The last value of a name, as inserting them one by one leaves it. -/
def lookup (kvs : List (String × String)) (name : String) : Option String :=
  (kvs.reverse.find? fun kv => kv.1 = name).map Prod.snd

/-! ### Plain text -/

/-- No character of the text means anything but itself. -/
def Plain (s : String) : Prop := ∀ c ∈ s.toList, c ≠ '&' ∧ c ≠ '=' ∧ c ≠ '+' ∧ c ≠ '%'

def render (kv : String × String) : List Char := kv.1.toList ++ '=' :: kv.2.toList

/-- Text that is valid UTF-8 is read without loss. -/
def Faithful (lossy : List UInt8 → String) : Prop := ∀ s : String, lossy (encode s.toList) = s

theorem unescape_plain {cs : List Char} (h : ∀ c ∈ cs, c ≠ '+' ∧ c ≠ '%') :
    unescape cs = encode cs := by
  induction cs with
  | nil => rfl
  | cons c cs ih =>
    obtain ⟨⟨hplus, hpercent⟩, hcs⟩ := List.forall_mem_cons.mp h
    have hstep : unescape (c :: cs) = encode [if c = '+' then ' ' else c] ++ unescape cs := by
      rw [unescape]
      rintro a b rest rfl
      exact absurd rfl hpercent
    rw [hstep, if_neg hplus, ih hcs, ← Kit.Utf8.encode_append]
    rfl

section Pairs

variable {lossy : List UInt8 → String} (hlossy : Faithful lossy)

include hlossy

theorem pair_render {kv : String × String} (hname : Plain kv.1) (hvalue : Plain kv.2) :
    pair lossy (render kv) = kv := by
  have hne : ∀ c ∈ kv.1.toList, (fun c : Char => decide (c ≠ '=')) c = true := by
    intro c hc
    exact decide_eq_true (hname c hc).2.1
  have htake : (render kv).takeWhile (· ≠ '=') = kv.1.toList := by
    rw [render, List.takeWhile_append_of_pos hne]
    simp
  have hdrop : ((render kv).dropWhile (· ≠ '=')).drop 1 = kv.2.toList := by
    rw [render, List.dropWhile_append_of_pos hne]
    simp
  have hplain : ∀ {s : String}, Plain s → lossy (unescape s.toList) = s := by
    intro s hs
    rw [unescape_plain fun c hc => (hs c hc).2.2]
    exact hlossy s
  rw [pair, htake, hdrop, hplain hname, hplain hvalue]

theorem pairs_render {kvs : List (String × String)}
    (h : ∀ kv ∈ kvs, Plain kv.1 ∧ Plain kv.2) :
    pairs lossy (['&'].intercalate (kvs.map render)) = kvs := by
  rcases List.eq_nil_or_concat kvs with rfl | ⟨init, last, hkvs⟩
  · rfl
  have hne : kvs.map render ≠ [] := by
    rw [hkvs]
    simp
  have hsep : ∀ l ∈ kvs.map render, '&' ∉ l := by
    intro l hl hmem
    obtain ⟨kv, hkv, rfl⟩ := List.mem_map.mp hl
    rcases List.mem_append.mp hmem with hc | hc
    · exact ((h kv hkv).1 _ hc).1 rfl
    rcases List.mem_cons.mp hc with hc | hc
    · exact absurd hc (by decide)
    · exact ((h kv hkv).2 _ hc).1 rfl
  have hfull : (kvs.map render).filter (· ≠ []) = kvs.map render := by
    apply List.filter_eq_self.mpr
    intro l hl
    obtain ⟨kv, -, rfl⟩ := List.mem_map.mp hl
    simp [render]
  rw [pairs, List.splitOn_intercalate '&' hsep hne, hfull, List.map_map]
  refine (List.map_congr_left fun kv hkv => ?_).trans (List.map_id _)
  exact pair_render hlossy (h kv hkv).1 (h kv hkv).2

end Pairs

end FormUrl
end Kit
