import Mathlib.Data.List.Basic

/-!
# Kit.Lines

A text as lines, the way a line iterator reads it: pieces end at a newline, the last piece may
lack one, and a carriage return before the newline is dropped with it.

* `lines_line`: a text that starts with a whole line reads as that line and the rest.
* `lines_last`: a line that lacks its newline.
* `lines_append`: cut after a newline, a text reads as its two halves do.
-/

namespace Kit
namespace Lines

/-- The pieces of a text, each with the newline that ends it. -/
def splitInclusive : List Char → List (List Char)
  | [] => []
  | c :: cs =>
    if c = '\n' then [c] :: splitInclusive cs
    else
      match splitInclusive cs with
      | [] => [[c]]
      | l :: ls => (c :: l) :: ls

def stripEnding (l : List Char) : List Char :=
  if l.getLast? = some '\n' then
    if l.dropLast.getLast? = some '\r' then l.dropLast.dropLast else l.dropLast
  else l

def lines (cs : List Char) : List (List Char) := (splitInclusive cs).map stripEnding

theorem splitInclusive_line {l : List Char} (h : '\n' ∉ l) (rest : List Char) :
    splitInclusive (l ++ '\n' :: rest) = (l ++ ['\n']) :: splitInclusive rest := by
  induction l with
  | nil => simp [splitInclusive]
  | cons c l ih =>
    have hc : c ≠ '\n' := fun e => h (by simp [e])
    have hl : '\n' ∉ l := fun e => h (by simp [e])
    simp [splitInclusive, hc, ih hl]

theorem splitInclusive_ne_nil {cs : List Char} (h : cs ≠ []) : splitInclusive cs ≠ [] := by
  cases cs with
  | nil => exact absurd rfl h
  | cons c cs =>
    simp only [splitInclusive]
    split
    · simp
    · split <;> simp

theorem splitInclusive_append (pre rest : List Char) :
    splitInclusive (pre ++ '\n' :: rest) =
      splitInclusive (pre ++ ['\n']) ++ splitInclusive rest := by
  induction pre with
  | nil => simp [splitInclusive]
  | cons c pre ih =>
    simp only [List.cons_append, splitInclusive, ih]
    split
    · rfl
    · cases h : splitInclusive (pre ++ ['\n']) with
      | nil => exact absurd h (splitInclusive_ne_nil (by simp))
      | cons l ls => rfl

/-- Where the text before it ends with a newline, a text reads as it does alone. -/
theorem lines_append (pre rest : List Char) :
    lines (pre ++ '\n' :: rest) = lines (pre ++ ['\n']) ++ lines rest := by
  rw [lines, splitInclusive_append, List.map_append]; rfl

theorem lines_line {l : List Char} (h : ∀ c ∈ l, c ≠ '\n' ∧ c ≠ '\r') (rest : List Char) :
    lines (l ++ '\n' :: rest) = l :: lines rest := by
  have hr : l.getLast? ≠ some '\r' := fun e => (h _ (List.mem_of_getLast? e)).2 rfl
  rw [lines, splitInclusive_line (fun e => (h _ e).1 rfl), List.map_cons]
  simp [stripEnding, hr, lines]

/-- A last line that has no newline. -/
theorem lines_last {l : List Char} (h : '\n' ∉ l) (h0 : l ≠ []) : lines l = [l] := by
  have hl : l.getLast? ≠ some '\n' := fun e => h (List.mem_of_getLast? e)
  have hs : splitInclusive l = [l] := by
    induction l with
    | nil => exact absurd rfl h0
    | cons c l ih =>
      have hc : c ≠ '\n' := fun e => h (by simp [e])
      cases l with
      | nil => simp [splitInclusive, hc]
      | cons d l =>
        have hd : '\n' ∉ d :: l := fun e => h (List.mem_cons_of_mem _ e)
        rw [splitInclusive, if_neg hc, ih hd (by simp) (fun e => hd (List.mem_of_getLast? e))]
  rw [lines, hs, List.map_singleton, stripEnding, if_neg hl]

end Lines
end Kit
