import Nockmark.Kit.Utf8

/-!
# Kit.Path

File names of one directory, as a file system gives them: bytes without a separator. Text is
read off a name where the name is UTF-8.

* `FileName.toStr_eq_some`: a name that reads as text is that text's name.
* `withExtension_dot`: a new extension replaces what stands behind the last dot.
-/

namespace Kit

structure FileName where
  bytes : List UInt8
  noSlash : 0x2F ∉ bytes
deriving DecidableEq

namespace FileName

theorem slash_mem_encode {cs : List Char} : 0x2F ∈ Utf8.encode cs ↔ '/' ∈ cs := by
  rw [Utf8.encode, List.mem_flatMap]
  constructor
  · rintro ⟨c, hc, hb⟩
    have hone := Utf8.encodeChar_of_ascii_mem hb (by decide)
    have : [c] = ['/'] := Utf8.encode_injective (by simp [hone]; rfl)
    cases this
    exact hc
  · exact fun h => ⟨'/', h, by decide⟩

def ofText (cs : List Char) (h : '/' ∉ cs) : FileName :=
  ⟨Utf8.encode cs, fun hb => h (slash_mem_encode.mp hb)⟩

/-- The name as text, if it is UTF-8. -/
def toStr (name : FileName) : Option (List Char) := Utf8.decode? name.bytes

@[simp] theorem toStr_ofText {cs : List Char} (h : '/' ∉ cs) : (ofText cs h).toStr = some cs :=
  Utf8.decode?_encode cs

theorem toStr_eq_some {name : FileName} {cs : List Char} (h : name.toStr = some cs) :
    ∃ hcs : '/' ∉ cs, name = ofText cs hcs := by
  have hbytes := Utf8.decode?_eq_some.mp h
  cases name with
  | mk bytes noSlash =>
    subst hbytes
    exact ⟨fun hc => noSlash (slash_mem_encode.mpr hc), rfl⟩

theorem ofText_inj {cs ds : List Char} {hc : '/' ∉ cs} {hd : '/' ∉ ds} :
    ofText cs hc = ofText ds hd ↔ cs = ds := by
  constructor
  · intro h
    have := congrArg toStr h
    simpa using this
  · rintro rfl
    rfl

end FileName

/-- What stands before the last dot, unless nothing does. -/
def fileStem (name : List Char) : List Char :=
  if name = ['.', '.'] then name
  else
    match name.reverse.dropWhile (· ≠ '.') with
    | _ :: c :: before => (c :: before).reverse
    | _ => name

def withExtension (name extension : List Char) : List Char :=
  if extension = [] then fileStem name else fileStem name ++ '.' :: extension

theorem withExtension_dot {stem old new : List Char} (hstem : stem ≠ []) (hold : '.' ∉ old)
    (hold' : old ≠ []) (hnew : new ≠ []) :
    withExtension (stem ++ '.' :: old) new = stem ++ '.' :: new := by
  have hdots : stem ++ '.' :: old ≠ ['.', '.'] := by
    intro h
    have hlen := congrArg List.length h
    have h1 := List.length_pos_iff.mpr hstem
    have h2 := List.length_pos_iff.mpr hold'
    simp only [List.length_append, List.length_cons, List.length_nil] at hlen
    omega
  obtain ⟨c, before, hrev⟩ : ∃ c before, stem.reverse = c :: before :=
    List.exists_cons_of_ne_nil (by simpa using hstem)
  have hdrop : (stem ++ '.' :: old).reverse.dropWhile (· ≠ '.') = '.' :: stem.reverse := by
    rw [List.reverse_append, List.reverse_cons, List.append_assoc,
      List.dropWhile_append_of_pos]
    · simp
    · intro d hd
      have : d ≠ '.' := fun h => hold (by simpa [h] using hd)
      simpa using this
  have hfile : fileStem (stem ++ '.' :: old) = stem := by
    rw [fileStem, if_neg hdots, hdrop, hrev]
    show (c :: before).reverse = stem
    rw [← hrev, List.reverse_reverse]
  rw [withExtension, if_neg hnew, hfile]

end Kit
