import Mathlib.Data.List.Basic
import Mathlib.Data.String.Basic

/-!
# Kit.Json

Compact JSON over natural numbers and strings: values, a printer, a parser and their round trip.

* `Members` is an object as an ordered map: `insert` keeps its keys ascending, `get` looks one up.
* `Value.Canonical`: every object in the value has ascending keys.
* `print`: no white space, control characters escaped, so a printed value is a single line
  (`print_one_line`).
* `parse_print`: what is printed parses back. The parser's fuel counts nested and sibling
  values; `weight` bounds what a value needs and is at most the length of its text.
-/

namespace Kit
namespace Json

/-- An object's members, in key order. -/
inductive Members (α : Type) where
  | nil
  | cons (k : String) (v : α) (m : Members α)

inductive Value where
  | null
  | bool (b : Bool)
  | num (n : Nat)
  | str (s : String)
  | arr (xs : List Value)
  | obj (m : Members Value)

namespace Members

variable {α : Type}

def get : Members α → String → Option α
  | .nil, _ => none
  | .cons k v m, x => if x = k then some v else get m x

def insert (k : String) (v : α) : Members α → Members α
  | .nil => .cons k v .nil
  | .cons k' v' m =>
    if k = k' then .cons k v m
    else if k < k' then .cons k v (.cons k' v' m)
    else .cons k' v' (insert k v m)

def ofList (kvs : List (String × α)) : Members α :=
  kvs.foldl (fun m kv => insert kv.1 kv.2 m) .nil

/-- The keys ascend, and are above `lo` if there is one. -/
def Above : Option String → Members α → Prop
  | _, .nil => True
  | lo, .cons k _ m => (∀ l ∈ lo, l < k) ∧ Above (some k) m

/-- Every member's value satisfies `P`. -/
def All (P : α → Prop) : Members α → Prop
  | .nil => True
  | .cons _ v m => P v ∧ All P m

@[simp] theorem get_insert_self (k : String) (v : α) (m : Members α) :
    (insert k v m).get k = some v := by
  induction m with
  | nil => simp [insert, get]
  | cons k' v' m ih =>
    simp only [insert]
    split
    · simp [get]
    · split
      · simp [get]
      · rename_i hne _
        simp [get, hne, ih]

@[simp] theorem get_insert_ne {k x : String} (h : x ≠ k) (v : α) (m : Members α) :
    (insert k v m).get x = m.get x := by
  induction m with
  | nil => simp [insert, get, h]
  | cons k' v' m ih =>
    simp only [insert]
    split
    · rename_i he; subst he; simp [get, h]
    · split
      · simp [get, h]
      · simp [get, ih]

theorem above_insert {lo : Option String} {k : String} (v : α) {m : Members α}
    (hlo : ∀ l ∈ lo, l < k) (h : Above lo m) : Above lo (insert k v m) := by
  induction m generalizing lo with
  | nil => exact ⟨hlo, trivial⟩
  | cons k' v' m ih =>
    simp only [insert]
    split
    · rename_i he; subst he; exact ⟨hlo, h.2⟩
    · rename_i hne
      split
      · rename_i hlt
        exact ⟨hlo, fun l hl => by cases hl; exact hlt, h.2⟩
      · rename_i hlt
        have hk : k' < k := lt_of_le_of_ne (not_lt.mp hlt) (Ne.symm hne)
        exact ⟨h.1, ih (fun l hl => by cases hl; exact hk) h.2⟩

theorem all_insert {P : α → Prop} {k : String} {v : α} {m : Members α} (hv : P v)
    (h : m.All P) : (insert k v m).All P := by
  induction m with
  | nil => exact ⟨hv, trivial⟩
  | cons k' v' m ih =>
    simp only [insert]
    split
    · exact ⟨hv, h.2⟩
    · split
      · exact ⟨hv, h⟩
      · exact ⟨h.1, ih h.2⟩

/-- Objects built by insertion have ascending keys. -/
theorem above_ofList {lo : Option String} {kvs : List (String × α)}
    (h : ∀ kv ∈ kvs, ∀ l ∈ lo, l < kv.1) : (ofList kvs).Above lo := by
  suffices ∀ m : Members α, m.Above lo →
      (kvs.foldl (fun m kv => insert kv.1 kv.2 m) m).Above lo from this .nil trivial
  induction kvs with
  | nil => exact fun m hm => hm
  | cons kv kvs ih =>
    intro m hm
    exact ih (fun kv' h' => h kv' (by simp [h'])) _ (above_insert kv.2 (h kv (by simp)) hm)

theorem insert_first {k : String} (v : α) {m : Members α} (h : m.Above (some k)) :
    insert k v m = .cons k v m := by
  cases m with
  | nil => rfl
  | cons k' v' m =>
    have hlt : k < k' := h.1 k rfl
    rw [insert, if_neg (ne_of_lt hlt), if_pos hlt]

/-- A key below all others comes first. -/
theorem insert_ofList {k : String} (v : α) {kvs : List (String × α)} (h : ∀ kv ∈ kvs, k < kv.1) :
    insert k v (ofList kvs) = .cons k v (ofList kvs) :=
  insert_first v (above_ofList fun kv hkv _ hl => Option.some.inj hl ▸ h kv hkv)

theorem insert_later {k k' : String} (h : k' < k) (v v' : α) (m : Members α) :
    insert k v (.cons k' v' m) = .cons k' v' (insert k v m) := by
  rw [insert, if_neg (ne_of_gt h), if_neg (lt_asymm h)]

theorem all_ofList {P : α → Prop} {kvs : List (String × α)} (h : ∀ kv ∈ kvs, P kv.2) :
    (ofList kvs).All P := by
  suffices ∀ m : Members α, m.All P →
      (kvs.foldl (fun m kv => insert kv.1 kv.2 m) m).All P from this .nil trivial
  induction kvs with
  | nil => exact fun m hm => hm
  | cons kv kvs ih =>
    exact fun m hm => ih (fun p hp => h p (by simp [hp])) _ (all_insert (h kv (by simp)) hm)

end Members

namespace Value

/-- `v[key]`: the member of an object, `null` for anything else. -/
def index : Value → String → Value
  | .obj m, key => (m.get key).getD .null
  | _, _ => .null

def asStr : Value → Option String
  | .str s => some s
  | _ => none

def asNum : Value → Option Nat
  | .num n => some n
  | _ => none

def asArr : Value → Option (List Value)
  | .arr xs => some xs
  | _ => none

end Value

/-! ## Canonical values -/

namespace Value

mutual

def Canonical : Value → Prop
  | .arr xs => CanonicalElems xs
  | .obj m => m.Above none ∧ CanonicalMembers m
  | _ => True

def CanonicalElems : List Value → Prop
  | [] => True
  | x :: xs => Canonical x ∧ CanonicalElems xs

def CanonicalMembers : Members Value → Prop
  | .nil => True
  | .cons _ v m => Canonical v ∧ CanonicalMembers m

end

theorem canonicalElems_iff {xs : List Value} : CanonicalElems xs ↔ ∀ x ∈ xs, x.Canonical := by
  induction xs with
  | nil => simp [CanonicalElems]
  | cons x xs ih => simp [CanonicalElems, ih]

theorem canonicalMembers_iff {m : Members Value} : CanonicalMembers m ↔ m.All Canonical := by
  induction m with
  | nil => simp [CanonicalMembers, Members.All]
  | cons k v m ih => simp [CanonicalMembers, Members.All, ih]

theorem canonical_obj {m : Members Value} :
    (obj m).Canonical ↔ m.Above none ∧ m.All Canonical := by
  rw [Canonical, canonicalMembers_iff]

theorem canonical_ofList {kvs : List (String × Value)} (h : ∀ kv ∈ kvs, kv.2.Canonical) :
    (obj (.ofList kvs)).Canonical :=
  canonical_obj.mpr ⟨Members.above_ofList (by simp), Members.all_ofList h⟩

theorem canonical_insert {k : String} {v : Value} {m : Members Value} (hv : v.Canonical)
    (h : (obj m).Canonical) : (obj (m.insert k v)).Canonical := by
  rw [canonical_obj] at h ⊢
  exact ⟨Members.above_insert v (by simp) h.1, Members.all_insert hv h.2⟩

end Value

/-! ## Printing -/

def escapeChar (c : Char) : List Char :=
  if c = '"' then ['\\', '"']
  else if c = '\\' then ['\\', '\\']
  else if c = '\n' then ['\\', 'n']
  else if c = '\r' then ['\\', 'r']
  else if c = '\t' then ['\\', 't']
  else if c.toNat = 8 then ['\\', 'b']
  else if c.toNat = 12 then ['\\', 'f']
  else if c.toNat < 32 then
    ['\\', 'u', '0', '0', Nat.digitChar (c.toNat / 16), Nat.digitChar (c.toNat % 16)]
  else [c]

def printStr (s : String) : List Char := '"' :: (s.toList.flatMap escapeChar ++ ['"'])

mutual

def print : Value → List Char
  | .null => ['n', 'u', 'l', 'l']
  | .bool true => ['t', 'r', 'u', 'e']
  | .bool false => ['f', 'a', 'l', 's', 'e']
  | .num n => Nat.toDigits 10 n
  | .str s => printStr s
  | .arr [] => ['[', ']']
  | .arr (x :: xs) => '[' :: (print x ++ printElems xs)
  | .obj .nil => ['{', '}']
  | .obj (.cons k v m) => '{' :: (printStr k ++ ':' :: (print v ++ printMembers m))

/-- What follows an element: further elements and the closing bracket. -/
def printElems : List Value → List Char
  | [] => [']']
  | x :: xs => ',' :: (print x ++ printElems xs)

/-- What follows a member: further members and the closing brace. -/
def printMembers : Members Value → List Char
  | .nil => ['}']
  | .cons k v m => ',' :: (printStr k ++ ':' :: (print v ++ printMembers m))

end

/-! ## Parsing -/

def isWs (c : Char) : Bool := c = ' ' || c = '\n' || c = '\t' || c = '\r'

def skipWs (cs : List Char) : List Char := cs.dropWhile isWs

def hexVal (c : Char) : Option Nat :=
  if '0' ≤ c ∧ c ≤ '9' then some (c.toNat - 48)
  else if 'a' ≤ c ∧ c ≤ 'f' then some (c.toNat - 87)
  else if 'A' ≤ c ∧ c ≤ 'F' then some (c.toNat - 55)
  else none

def hex4 : List Char → Option (Nat × List Char)
  | a :: b :: c :: d :: r => do
    let a ← hexVal a
    let b ← hexVal b
    let c ← hexVal c
    let d ← hexVal d
    return (((a * 16 + b) * 16 + c) * 16 + d, r)
  | _ => none

/-- The code unit after `\u`, with the second half of a surrogate pair. -/
def unescapeUnicode (cs : List Char) : Option (Char × List Char) :=
  match hex4 cs with
  | none => none
  | some (n, r) =>
    if n.isValidChar then some (Char.ofNat n, r)
    else if n < 0xDC00 then
      match r with
      | '\\' :: 'u' :: r =>
        match hex4 r with
        | none => none
        | some (m, r) =>
          if 0xDC00 ≤ m ∧ m < 0xE000 then
            some (Char.ofNat (0x10000 + (n - 0xD800) * 0x400 + (m - 0xDC00)), r)
          else none
      | _ => none
    else none

/-- The character after a backslash. -/
def unescape : List Char → Option (Char × List Char)
  | [] => none
  | c :: r =>
    if c = '"' ∨ c = '\\' ∨ c = '/' then some (c, r)
    else if c = 'n' then some ('\n', r)
    else if c = 'r' then some ('\r', r)
    else if c = 't' then some ('\t', r)
    else if c = 'b' then some (Char.ofNat 8, r)
    else if c = 'f' then some (Char.ofNat 12, r)
    else if c = 'u' then unescapeUnicode r
    else none

/-- The rest of a string after its opening quote. -/
def parseChars : Nat → List Char → Option (List Char × List Char)
  | 0, _ => none
  | _ + 1, [] => none
  | fuel + 1, c :: r =>
    if c = '"' then some ([], r)
    else if c = '\\' then
      match unescape r with
      | none => none
      | some (d, r) => (parseChars fuel r).map fun p => (d :: p.1, p.2)
    else if c.toNat < 32 then none
    else (parseChars fuel r).map fun p => (c :: p.1, p.2)

def parseStr (cs : List Char) : Option (String × List Char) :=
  (parseChars (cs.length + 1) cs).map fun p => (String.ofList p.1, p.2)

/-- A natural number without leading zeros. Fractions and exponents are outside `Value`. -/
def parseNum (cs : List Char) : Option (Value × List Char) :=
  let ds := cs.takeWhile Char.isDigit
  let r := cs.dropWhile Char.isDigit
  if ds = [] then none
  else if ds.head? = some '0' ∧ ds.length ≠ 1 then none
  else if r.head? = some '.' ∨ r.head? = some 'e' ∨ r.head? = some 'E' then none
  else some (.num (Nat.ofDigitChars 10 ds 0), r)

mutual

def parseValue : Nat → List Char → Option (Value × List Char)
  | 0, _ => none
  | fuel + 1, cs =>
    match skipWs cs with
    | [] => none
    | c :: r =>
      if c = '"' then (parseStr r).map fun p => (.str p.1, p.2)
      else if c = '[' then
        match skipWs r with
        | ']' :: r => some (.arr [], r)
        | r => (parseElems fuel r).map fun p => (.arr p.1, p.2)
      else if c = '{' then
        match skipWs r with
        | '}' :: r => some (.obj .nil, r)
        | r => (parseMembers fuel r).map fun p => (.obj p.1, p.2)
      else if c = 'n' then
        match r with
        | 'u' :: 'l' :: 'l' :: r => some (.null, r)
        | _ => none
      else if c = 't' then
        match r with
        | 'r' :: 'u' :: 'e' :: r => some (.bool true, r)
        | _ => none
      else if c = 'f' then
        match r with
        | 'a' :: 'l' :: 's' :: 'e' :: r => some (.bool false, r)
        | _ => none
      else parseNum (c :: r)

/-- Elements up to the closing bracket. -/
def parseElems : Nat → List Char → Option (List Value × List Char)
  | 0, _ => none
  | fuel + 1, cs =>
    match parseValue fuel cs with
    | none => none
    | some (x, r) =>
      match skipWs r with
      | ']' :: r => some ([x], r)
      | ',' :: r => (parseElems fuel r).map fun p => (x :: p.1, p.2)
      | _ => none

/-- Members up to the closing brace. -/
def parseMembers : Nat → List Char → Option (Members Value × List Char)
  | 0, _ => none
  | fuel + 1, cs =>
    match skipWs cs with
    | '"' :: r =>
      match parseStr r with
      | none => none
      | some (k, r) =>
        match skipWs r with
        | ':' :: r =>
          match parseValue fuel r with
          | none => none
          | some (v, r) =>
            match skipWs r with
            | '}' :: r => some (.cons k v .nil, r)
            | ',' :: r => (parseMembers fuel r).map fun p => (.cons k v p.1, p.2)
            | _ => none
        | _ => none
    | _ => none

end

/-- A whole text is one value and white space. -/
def parse (cs : List Char) : Option Value :=
  match parseValue (cs.length + 1) cs with
  | some (v, r) => if skipWs r = [] then some v else none
  | none => none

/-! ## A printed value is one line -/

/-- Text without a line break. -/
def OneLine (cs : List Char) : Prop := ∀ c ∈ cs, c ≠ '\n' ∧ c ≠ '\r'

@[simp] theorem oneLine_nil : OneLine [] := List.forall_mem_nil _

@[simp] theorem oneLine_cons {c : Char} {cs : List Char} :
    OneLine (c :: cs) ↔ (c ≠ '\n' ∧ c ≠ '\r') ∧ OneLine cs := List.forall_mem_cons

@[simp] theorem oneLine_append {cs ds : List Char} :
    OneLine (cs ++ ds) ↔ OneLine cs ∧ OneLine ds := List.forall_mem_append

theorem oneLine_flatMap {f : Char → List Char} (h : ∀ c, OneLine (f c)) (cs : List Char) :
    OneLine (cs.flatMap f) := by
  intro d hd
  obtain ⟨c, -, hc⟩ := List.mem_flatMap.mp hd
  exact h c d hc

theorem digitChar_plain {d : Nat} (h : d < 16) :
    Nat.digitChar d ≠ '\n' ∧ Nat.digitChar d ≠ '\r' := by
  revert d; decide

theorem oneLine_escapeChar (c : Char) : OneLine (escapeChar c) := by
  unfold escapeChar
  by_cases hn : c = '\n'
  · simp [hn]
  by_cases hr : c = '\r'
  · simp [hr]
  rw [if_neg hn, if_neg hr]
  split
  · simp
  split
  · simp
  split
  · simp
  split
  · simp
  split
  · simp
  split
  · have hhi := digitChar_plain (show c.toNat / 16 < 16 by omega)
    have hlo := digitChar_plain (show c.toNat % 16 < 16 by omega)
    simp [hhi, hlo]
  · simp [hn, hr]

@[simp] theorem oneLine_printStr (s : String) : OneLine (printStr s) := by
  simp [printStr, oneLine_flatMap oneLine_escapeChar]

theorem oneLine_digits (n : Nat) : OneLine (Nat.toDigits 10 n) := by
  intro d h
  have hd : d.isDigit = true := Nat.isDigit_of_mem_toDigits (by omega) (by omega) h
  constructor
  · rintro rfl; simp at hd
  · rintro rfl; simp at hd

mutual

theorem print_one_line : ∀ v : Value, OneLine (print v)
  | .null => by simp [print]
  | .bool true => by simp [print]
  | .bool false => by simp [print]
  | .num n => by rw [print]; exact oneLine_digits n
  | .str s => by simp [print]
  | .arr [] => by simp [print]
  | .arr (x :: xs) => by simp [print, print_one_line x, printElems_one_line xs]
  | .obj .nil => by simp [print]
  | .obj (.cons k v m) => by simp [print, print_one_line v, printMembers_one_line m]

theorem printElems_one_line : ∀ xs : List Value, OneLine (printElems xs)
  | [] => by simp [printElems]
  | x :: xs => by simp [printElems, print_one_line x, printElems_one_line xs]

theorem printMembers_one_line : ∀ m : Members Value, OneLine (printMembers m)
  | .nil => by simp [printMembers]
  | .cons k v m => by simp [printMembers, print_one_line v, printMembers_one_line m]

end

/-! ## The parser inverts the printer -/

theorem hexVal_digitChar : ∀ d < 16, hexVal (Nat.digitChar d) = some d := by decide

/-- The escape of a character is one step of the string parser. -/
theorem parseChars_escapeChar (c : Char) (fuel : Nat) (r : List Char) :
    parseChars (fuel + 1) (escapeChar c ++ r) =
      (parseChars fuel r).map fun p => (c :: p.1, p.2) := by
  unfold escapeChar
  split
  · subst_vars; simp [parseChars, unescape]
  split
  · subst_vars; simp [parseChars, unescape]
  split
  · subst_vars; simp [parseChars, unescape]
  split
  · subst_vars; simp [parseChars, unescape]
  split
  · subst_vars; simp [parseChars, unescape]
  split
  · rename_i h
    obtain rfl : c = Char.ofNat 8 := by rw [← h, Char.ofNat_toNat]
    simp [parseChars, unescape]
  split
  · rename_i h
    obtain rfl : c = Char.ofNat 12 := by rw [← h, Char.ofNat_toNat]
    simp [parseChars, unescape]
  split
  · rename_i h
    have h0 : hexVal '0' = some 0 := by decide
    have h1 := hexVal_digitChar (c.toNat / 16) (by omega)
    have h2 := hexVal_digitChar (c.toNat % 16) (by omega)
    have hn : c.toNat / 16 * 16 + c.toNat % 16 = c.toNat := by omega
    have hv : c.toNat.isValidChar := Or.inl (by omega)
    simp [parseChars, unescape, unescapeUnicode, hex4, h0, h1, h2, hn, hv, Char.ofNat_toNat]
  · rename_i hq hb _ _ _ _ _ hlt
    simp [parseChars, hq, hb, hlt]

theorem parseChars_escaped (cs : List Char) {fuel : Nat} (h : cs.length < fuel) (r : List Char) :
    parseChars fuel (cs.flatMap escapeChar ++ '"' :: r) = some (cs, r) := by
  induction cs generalizing fuel with
  | nil =>
    obtain ⟨f, rfl⟩ : ∃ f, fuel = f + 1 := ⟨fuel - 1, by simp at h; omega⟩
    simp [parseChars]
  | cons c cs ih =>
    obtain ⟨f, rfl⟩ : ∃ f, fuel = f + 1 := ⟨fuel - 1, by simp at h; omega⟩
    rw [List.flatMap_cons, List.append_assoc, parseChars_escapeChar,
      ih (by simpa using h)]
    rfl

theorem length_escapeChar_pos (c : Char) : 0 < (escapeChar c).length := by
  unfold escapeChar
  repeat' split
  all_goals simp

theorem length_le_flatMap_escapeChar (cs : List Char) :
    cs.length ≤ (cs.flatMap escapeChar).length := by
  induction cs with
  | nil => simp
  | cons c cs ih =>
    have := length_escapeChar_pos c
    rw [List.flatMap_cons, List.length_append, List.length_cons]
    omega

theorem parseStr_printStr (s : String) (r : List Char) :
    parseStr (s.toList.flatMap escapeChar ++ '"' :: r) = some (s, r) := by
  have hl := length_le_flatMap_escapeChar s.toList
  rw [parseStr, parseChars_escaped s.toList (by simp only [List.length_append]; omega)]
  simp

/-- The text after a value ends a number. -/
def Stops (r : List Char) : Prop :=
  ∀ c ∈ r.head?, c.isDigit = false ∧ c ≠ '.' ∧ c ≠ 'e' ∧ c ≠ 'E'

theorem takeWhile_append_stops {ds r : List Char} (hd : ∀ c ∈ ds, c.isDigit = true)
    (hr : Stops r) : (ds ++ r).takeWhile Char.isDigit = ds ∧
      (ds ++ r).dropWhile Char.isDigit = r := by
  induction ds with
  | nil =>
    cases r with
    | nil => exact ⟨rfl, rfl⟩
    | cons c r =>
      have hc := (hr c rfl).1
      constructor <;> simp [hc]
  | cons d ds ih =>
    have h1 := hd d (by simp)
    obtain ⟨ih1, ih2⟩ := ih fun c hc => hd c (by simp [hc])
    constructor
    · simp [h1, ih1]
    · simp [h1, ih2]

/-- A decimal numeral has no superfluous leading zero. -/
theorem toDigits_head (n : Nat) :
    (Nat.toDigits 10 n).head? ≠ some '0' ∨ (Nat.toDigits 10 n).length = 1 := by
  induction n using Nat.strongRecOn with
  | ind n ih =>
    by_cases h : n < 10
    · right; rw [Nat.toDigits_of_lt_base h]; rfl
    · rw [Nat.toDigits_of_base_le (by omega) (by omega)]
      left
      have hne : Nat.toDigits 10 (n / 10) ≠ [] := Nat.toDigits_ne_nil
      rw [List.head?_append_of_ne_nil _ hne]
      rcases ih (n / 10) (by omega) with h0 | h1
      · exact h0
      · intro h0
        have hz : n / 10 = 0 := by
          have hd := Nat.ofDigitChars_ten_toDigits (n := n / 10)
          rw [List.length_eq_one_iff] at h1
          obtain ⟨a, ha⟩ := h1
          rw [ha] at h0 hd
          cases Option.some.inj h0
          rw [← hd]; rfl
        omega

theorem parseNum_print (n : Nat) {r : List Char} (hr : Stops r) :
    parseNum (Nat.toDigits 10 n ++ r) = some (.num n, r) := by
  have hd : ∀ c ∈ Nat.toDigits 10 n, c.isDigit = true := fun c hc =>
    Nat.isDigit_of_mem_toDigits (by omega) (by omega) hc
  obtain ⟨ht, hdr⟩ := takeWhile_append_stops hd hr
  have hne : Nat.toDigits 10 n ≠ [] := Nat.toDigits_ne_nil
  have hz : ¬((Nat.toDigits 10 n).head? = some '0' ∧ (Nat.toDigits 10 n).length ≠ 1) := by
    rintro ⟨h0, h1⟩
    rcases toDigits_head n with h | h
    · exact h h0
    · exact h1 h
  have hs : ¬(r.head? = some '.' ∨ r.head? = some 'e' ∨ r.head? = some 'E') := by
    rintro (h | h | h)
    · exact (hr _ h).2.1 rfl
    · exact (hr _ h).2.2.1 rfl
    · exact (hr _ h).2.2.2 rfl
  simp only [parseNum, ht, hdr, hne, if_false, hz, hs, Nat.ofDigitChars_ten_toDigits]

/-! ### Fuel -/

mutual

/-- The fuel that a value's text takes. -/
def weight : Value → Nat
  | .arr xs => 1 + weightElems xs
  | .obj m => 1 + weightMembers m
  | _ => 1

def weightElems : List Value → Nat
  | [] => 0
  | x :: xs => 1 + weight x + weightElems xs

def weightMembers : Members Value → Nat
  | .nil => 0
  | .cons _ v m => 1 + weight v + weightMembers m

end

mutual

theorem weight_le_length : ∀ v : Value, weight v ≤ (print v).length
  | .null => by simp [weight, print]
  | .bool true => by simp [weight, print]
  | .bool false => by simp [weight, print]
  | .num n => by
    have hn := List.length_pos_of_ne_nil (Nat.toDigits_ne_nil (n := n) (b := 10))
    simp only [weight, print]
    omega
  | .str s => by simp [weight, print, printStr]
  | .arr [] => by simp [weight, weightElems, print]
  | .arr (x :: xs) => by
    have hx := weight_le_length x
    have hxs := weightElems_lt_length xs
    simp only [weight, weightElems, print, List.length_cons, List.length_append]
    omega
  | .obj .nil => by simp [weight, weightMembers, print]
  | .obj (.cons k v m) => by
    have hv := weight_le_length v
    have hm := weightMembers_lt_length m
    simp only [weight, weightMembers, print, List.length_cons, List.length_append]
    omega

theorem weightElems_lt_length : ∀ xs : List Value, weightElems xs < (printElems xs).length
  | [] => by simp [weightElems, printElems]
  | x :: xs => by
    have hx := weight_le_length x
    have hxs := weightElems_lt_length xs
    simp only [weightElems, printElems, List.length_cons, List.length_append]
    omega

theorem weightMembers_lt_length :
    ∀ m : Members Value, weightMembers m < (printMembers m).length
  | .nil => by simp [weightMembers, printMembers]
  | .cons k v m => by
    have hv := weight_le_length v
    have hm := weightMembers_lt_length m
    simp only [weightMembers, printMembers, List.length_cons, List.length_append]
    omega

end

/-! ### First characters -/

theorem skipWs_cons {c : Char} (h : isWs c = false) (r : List Char) : skipWs (c :: r) = c :: r := by
  simp [skipWs, h]

theorem isDigit_cases {c : Char} (h : c.isDigit = true) : isWs c = false ∧ c ≠ '"' ∧ c ≠ '[' ∧
    c ≠ ']' ∧ c ≠ '{' ∧ c ≠ 'n' ∧ c ≠ 't' ∧ c ≠ 'f' := by
  have hw : isWs c = false := by
    cases hws : isWs c with
    | false => rfl
    | true =>
      simp only [isWs, Bool.or_eq_true, decide_eq_true_eq] at hws
      rcases hws with ((rfl | rfl) | rfl) | rfl <;> simp at h
  refine ⟨hw, ?_, ?_, ?_, ?_, ?_, ?_, ?_⟩ <;> (rintro rfl; simp at h)

/-- A number's text starts with a digit. -/
theorem toDigits_cons (n : Nat) : ∃ d ds, Nat.toDigits 10 n = d :: ds ∧ d.isDigit = true := by
  cases hd : Nat.toDigits 10 n with
  | nil => exact absurd hd Nat.toDigits_ne_nil
  | cons d ds =>
    have hmem : d ∈ Nat.toDigits 10 n := by simp [hd]
    exact ⟨d, ds, rfl, Nat.isDigit_of_mem_toDigits (by omega) (by omega) hmem⟩

theorem skipWs_quote (r : List Char) : skipWs ('"' :: r) = '"' :: r := skipWs_cons rfl r

theorem skipWs_colon (r : List Char) : skipWs (':' :: r) = ':' :: r := skipWs_cons rfl r

/-- A value's text starts with neither white space nor a closing bracket. -/
theorem print_head (v : Value) : ∃ c t, print v = c :: t ∧ isWs c = false ∧ c ≠ ']' := by
  cases v with
  | null => exact ⟨_, _, rfl, rfl, by simp⟩
  | bool b => cases b <;> exact ⟨_, _, rfl, rfl, by simp⟩
  | num n =>
    obtain ⟨d, ds, hds, hd⟩ := toDigits_cons n
    obtain ⟨hw, _, _, hb, _⟩ := isDigit_cases hd
    exact ⟨d, ds, by rw [print, hds], hw, hb⟩
  | str s => exact ⟨_, _, rfl, rfl, by simp⟩
  | arr xs => cases xs <;> exact ⟨_, _, rfl, rfl, by simp⟩
  | obj m => cases m <;> exact ⟨_, _, rfl, rfl, by simp⟩

theorem stops_printElems (xs : List Value) (r : List Char) : Stops (printElems xs ++ r) := by
  cases xs with
  | nil => intro c hc; cases hc; simp
  | cons x xs => intro c hc; cases hc; simp

theorem stops_printMembers (m : Members Value) (r : List Char) : Stops (printMembers m ++ r) := by
  cases m with
  | nil => intro c hc; cases hc; simp
  | cons k v m => intro c hc; cases hc; simp

/-! ### Round trip -/

mutual

theorem parseValue_print : ∀ (v : Value) {f : Nat} (_ : weight v ≤ f) {r : List Char}
    (_ : Stops r), parseValue f (print v ++ r) = some (v, r)
  | v, 0, h, _, _ => by cases v <;> simp [weight] at h
  | .null, n + 1, _, r, _ => by simp [print, parseValue, skipWs, isWs]
  | .bool true, n + 1, _, r, _ => by simp [print, parseValue, skipWs, isWs]
  | .bool false, n + 1, _, r, _ => by simp [print, parseValue, skipWs, isWs]
  | .num i, n + 1, _, r, hr => by
    have hp := parseNum_print i hr
    obtain ⟨d, ds, hds, hd⟩ := toDigits_cons i
    obtain ⟨hw, h1, h2, _, h3, h4, h5, h6⟩ := isDigit_cases hd
    rw [hds] at hp
    simp only [print, hds, List.cons_append, parseValue, skipWs_cons hw, h1, h2, h3, h4, h5, h6,
      if_false]
    exact hp
  | .str s, n + 1, _, r, _ => by
    simp only [print, printStr, List.cons_append, parseValue, skipWs_quote, if_true,
      List.append_assoc, List.nil_append, parseStr_printStr]
    rfl
  | .arr [], n + 1, _, r, _ => by simp [print, parseValue, skipWs, isWs]
  | .arr (x :: xs), n + 1, h, r, hr => by
    have hxs := parseElems_print x xs (f := n) (by simp only [weight] at h; omega) r
    obtain ⟨c, t, hc, hw, hb⟩ := print_head x
    have hskip : skipWs (print x ++ (printElems xs ++ r)) = print x ++ (printElems xs ++ r) := by
      rw [hc]; exact skipWs_cons hw _
    have hw' : isWs '[' = false := rfl
    simp only [print, List.cons_append, List.append_assoc, parseValue, skipWs_cons hw',
      Char.reduceEq, if_false, if_true, hskip]
    split
    · rename_i heq
      rw [hc] at heq
      exact absurd (List.cons.inj heq).1 hb
    · rw [hxs]; rfl
  | .obj .nil, n + 1, _, r, _ => by simp [print, parseValue, skipWs, isWs]
  | .obj (.cons k v m), n + 1, h, r, hr => by
    have hm := parseMembers_print k v m (f := n) (by simp only [weight] at h; omega) r
    have hw' : isWs '{' = false := rfl
    simp only [print, printStr, List.cons_append, List.append_assoc, List.nil_append, parseValue,
      skipWs_cons hw', skipWs_quote, Char.reduceEq, if_false, if_true] at hm ⊢
    split
    · rename_i heq; simp at heq
    · rw [hm]; rfl

theorem parseElems_print : ∀ (x : Value) (xs : List Value) {f : Nat}
    (_ : weightElems (x :: xs) ≤ f) (r : List Char),
    parseElems f (print x ++ (printElems xs ++ r)) = some (x :: xs, r)
  | x, xs, 0, h, _ => by simp [weightElems] at h
  | x, [], n + 1, h, r => by
    have hx := parseValue_print x (f := n) (by simp only [weightElems] at h; omega)
      (stops_printElems [] r)
    rw [parseElems, hx]
    simp [printElems, skipWs, isWs]
  | x, y :: ys, n + 1, h, r => by
    have hx := parseValue_print x (f := n) (by simp only [weightElems] at h; omega)
      (stops_printElems (y :: ys) r)
    have hys := parseElems_print y ys (f := n) (by simp only [weightElems] at h ⊢; omega) r
    rw [parseElems, hx]
    simp [printElems, skipWs, isWs, hys]

theorem parseMembers_print : ∀ (k : String) (v : Value) (m : Members Value) {f : Nat}
    (_ : weightMembers (.cons k v m) ≤ f) (r : List Char),
    parseMembers f (printStr k ++ ':' :: (print v ++ (printMembers m ++ r))) =
      some (.cons k v m, r)
  | k, v, m, 0, h, _ => by simp [weightMembers] at h
  | k, v, .nil, n + 1, h, r => by
    have hv := parseValue_print v (f := n) (by simp only [weightMembers] at h; omega)
      (stops_printMembers .nil r)
    simp only [printStr, List.cons_append, List.append_assoc, List.nil_append, parseMembers,
      skipWs_quote, skipWs_colon, parseStr_printStr, hv]
    simp [printMembers, skipWs, isWs]
  | k, v, .cons k' v' m, n + 1, h, r => by
    have hv := parseValue_print v (f := n) (by simp only [weightMembers] at h; omega)
      (stops_printMembers (.cons k' v' m) r)
    have hm := parseMembers_print k' v' m (f := n)
      (by simp only [weightMembers] at h ⊢; omega) r
    simp only [printStr, List.cons_append, List.append_assoc, List.nil_append, parseMembers,
      skipWs_quote, skipWs_colon, parseStr_printStr, hv] at hm ⊢
    simp [printMembers, printStr, skipWs, isWs, hm]

end

/-- Printing a value and parsing the text gives the value back. -/
theorem parse_print (v : Value) : parse (print v) = some v := by
  have hw := weight_le_length v
  have h := parseValue_print v (f := (print v).length + 1) (by omega) (r := []) (by simp [Stops])
  rw [List.append_nil] at h
  simp [parse, h, skipWs]

end Json
end Kit
