import Mathlib.Logic.Function.Basic
import Nockmark.Kit.Machine
import Nockmark.Kit.Path

/-!
# Registry.Contexts

The verifier contexts in the data directory (`registry/src/aipow.rs`, `aipow_moe.rs`): each of two
builders writes a temporary file and renames it to a name with the pin in it, and the boot sweep
removes what the names say is of another pin.

A file carries the build that wrote it; the code does not see it. The directory can be read and
its files removed.

* `stalePin_isSome_iff`: the names that the sweep removes.
* `step_leftover`: what leaves a temporary file, and what takes it away.
* `sweep_reclaims_iff`: the sweep leaves nothing of another pin exactly if no build of one was cut
  off for good.
-/

namespace Nockmark
namespace Registry

open Kit (FileName Machine)

/-- A commit of the prover, as it stands in a file name. -/
@[ext] structure Pin where
  text : List Char
  noSlash : '/' ∉ text
deriving DecidableEq

inductive Builder where
  | dense
  | moe
deriving DecidableEq, Repr

/-- `PREFIXES` -/
def Builder.namePrefix : Builder → List Char
  | .dense => "aipow-verifier-context-".toList
  | .moe => "aipow-moe-verifier-context-".toList

/-- `LEGACY` -/
def legacy : List (List Char) :=
  ["aipow-verifier-context.bin".toList, "aipow-moe-verifier-context.bin".toList]

def dotBin : List Char := ".bin".toList

theorem Builder.namePrefix_ne_nil (b : Builder) : b.namePrefix ≠ [] := by
  cases b <;> decide

theorem Builder.namePrefix_plain (b : Builder) : '/' ∉ b.namePrefix ∧ '.' ∉ b.namePrefix := by
  cases b <;> decide

/-- A builder of a binary with a given pin. -/
@[ext] structure Build where
  builder : Builder
  pin : Pin
deriving DecidableEq

namespace Build

def contextText (w : Build) : List Char := w.builder.namePrefix ++ w.pin.text ++ dotBin

def tmpText (w : Build) : List Char := Kit.withExtension w.contextText "bin.tmp".toList

theorem tmpText_eq (w : Build) : w.tmpText = w.contextText ++ ".tmp".toList := by
  have hne : w.builder.namePrefix ++ w.pin.text ≠ [] :=
    List.append_ne_nil_of_left_ne_nil w.builder.namePrefix_ne_nil _
  have h : w.tmpText = w.builder.namePrefix ++ w.pin.text ++ '.' :: "bin.tmp".toList :=
    Kit.withExtension_dot hne (by decide) (by decide) (by decide)
  exact h.trans (List.append_assoc _ dotBin ".tmp".toList).symm

theorem contextText_noSlash (w : Build) : '/' ∉ w.contextText := by
  have hpin := w.pin.noSlash
  have hpre := w.builder.namePrefix_plain.1
  have hbin : '/' ∉ dotBin := by decide
  simp only [contextText, List.mem_append, not_or]
  exact ⟨⟨hpre, hpin⟩, hbin⟩

theorem tmpText_noSlash (w : Build) : '/' ∉ w.tmpText := by
  have htmp : '/' ∉ ".tmp".toList := by decide
  rw [tmpText_eq, List.mem_append, not_or]
  exact ⟨w.contextText_noSlash, htmp⟩

/-- `context_path` -/
def context (w : Build) : FileName := .ofText w.contextText w.contextText_noSlash

/-- The temporary file of `build_context_by_proving`. -/
def tmp (w : Build) : FileName := .ofText w.tmpText w.tmpText_noSlash

end Build

/-! ### The directory -/

structure File where
  content : List UInt8
  writer : Option Build

abbrev DataDir := FileName → Option File

/-- The pin that a file is swept for, if it is. -/
def stalePin (pin : Pin) (name : List Char) : Option (List Char) :=
  if name ∈ legacy then some "pre-scoping".toList
  else
    match [Builder.dense.namePrefix, Builder.moe.namePrefix].find? (·.isPrefixOf name) with
    | none => none
    | some pre =>
      if dotBin.isSuffixOf name then
        let thisPin := (name.take (name.length - dotBin.length)).drop pre.length
        if thisPin = pin.text then none else some thisPin
      else none

def sweepStaleContexts (pin : Pin) (dir : DataDir) : DataDir := fun name =>
  match name.toStr with
  | none => dir name
  | some text => if (stalePin pin text).isSome then none else dir name

/-- How far a build gets: it fails to prove, the write is cut off after some bytes, the rename
is not reached, or the file is in place. -/
inductive Stop where
  | proving
  | writing (n : Nat)
  | written
  | renamed

def buildContextByProving (w : Build) (blob : List UInt8) (stop : Stop) (dir : DataDir) :
    DataDir :=
  match stop with
  | .proving => dir
  | .writing n => Function.update dir w.tmp (some ⟨blob.take n, some w⟩)
  | .written => Function.update dir w.tmp (some ⟨blob, some w⟩)
  | .renamed =>
    Function.update (Function.update dir w.tmp none) w.context (some ⟨blob, some w⟩)

/-- A context on disk is read, not built. -/
def loadOrBuild (w : Build) (blob : List UInt8) (stop : Stop) (dir : DataDir) : DataDir :=
  match dir w.context with
  | some _ => dir
  | none => buildContextByProving w blob stop dir

structure DirState where
  dir : DataDir
  pin : Pin

inductive DirEvent where
  | boot (pin : Pin)
  | build (builder : Builder) (blob : List UInt8) (stop : Stop)
  /-- Anyone else writes or removes a file. -/
  | other (name : FileName) (content : Option (List UInt8))

def dirStep (s : DirState) : DirEvent → DirState
  | .boot pin => ⟨sweepStaleContexts pin s.dir, pin⟩
  | .build builder blob stop => { s with dir := loadOrBuild ⟨builder, s.pin⟩ blob stop s.dir }
  | .other name content =>
    { s with dir := Function.update s.dir name (content.map fun c => ⟨c, none⟩) }

/-- A directory in which no file is a builder's yet. -/
def boots (others : FileName → Option (List UInt8)) (pin : Pin) : Machine DirState DirEvent where
  init := ⟨fun name => (others name).map fun c => ⟨c, none⟩, pin⟩
  step := dirStep

/-! ### Names -/

theorem find_namePrefix (b : Builder) (rest : List Char) :
    [Builder.dense.namePrefix, Builder.moe.namePrefix].find?
      (·.isPrefixOf (b.namePrefix ++ rest)) = some b.namePrefix := by
  have hself : b.namePrefix.isPrefixOf (b.namePrefix ++ rest) = true :=
    List.isPrefixOf_iff_prefix.mpr (List.prefix_append _ _)
  cases b with
  | dense => simp only [List.find?_cons, hself]
  | moe =>
    have hdense : Builder.dense.namePrefix.isPrefixOf (Builder.moe.namePrefix ++ rest) = false := by
      by_contra h
      rw [Bool.not_eq_false, List.isPrefixOf_iff_prefix] at h
      -- the shorter of two prefixes would begin the longer
      have hpre := List.prefix_of_prefix_length_le h
        (List.prefix_append Builder.moe.namePrefix rest) (by decide)
      exact absurd hpre (by decide)
    simp only [List.find?_cons, hdense, hself]

theorem namePrefix_not_legacy (b : Builder) (rest : List Char) :
    b.namePrefix ++ rest ∉ legacy := by
  intro h
  have hall : ∀ l ∈ legacy, ¬ b.namePrefix <+: l := by cases b <;> decide
  exact hall _ h (List.prefix_append _ _)

/-- A prefix and the extension do not overlap. -/
theorem split_middle {b : Builder} {name : List Char} (hpre : b.namePrefix <+: name)
    (hsuf : dotBin <:+ name) : ∃ middle, name = b.namePrefix ++ middle ++ dotBin := by
  obtain ⟨rest, rfl⟩ := hpre
  obtain ⟨front, h⟩ := hsuf
  rcases List.append_eq_append_iff.mp h with ⟨shared, hshared, hbin⟩ | ⟨middle, hfront, hrest⟩
  · cases shared with
    | nil => exact ⟨[], by simp [hbin]⟩
    | cons c shared =>
      have hc : c = '.' := by
        have := congrArg List.head? hbin
        simpa [dotBin] using this.symm
      exact absurd (hshared ▸ by simp [hc]) b.namePrefix_plain.2
  · exact ⟨middle, by rw [hrest, List.append_assoc]⟩

theorem slice_middle (pre middle : List Char) :
    ((pre ++ middle ++ dotBin).take ((pre ++ middle ++ dotBin).length - dotBin.length)).drop
      pre.length = middle := by
  rw [@List.length_append _ _ dotBin, Nat.add_sub_cancel, List.take_left, List.drop_left]

/-- What is swept has an unscoped name, or a prefix and the extension around another pin. -/
theorem name_of_stale {pin : Pin} {name : List Char} (h : (stalePin pin name).isSome) :
    name ∈ legacy ∨ ∃ (b : Builder) (middle : List Char), middle ≠ pin.text ∧
      name = b.namePrefix ++ middle ++ dotBin := by
  unfold stalePin at h
  split at h
  · rename_i hl
    exact .inl hl
  split at h
  · cases h
  rename_i pre hfind
  have hfound := List.find?_some hfind
  have hpre := List.isPrefixOf_iff_prefix.mp hfound
  obtain ⟨b, rfl⟩ : ∃ b : Builder, pre = b.namePrefix := by
    have hmem := List.mem_of_find?_eq_some hfind
    simp only [List.mem_cons, List.not_mem_nil, or_false] at hmem
    rcases hmem with rfl | rfl
    · exact ⟨.dense, rfl⟩
    · exact ⟨.moe, rfl⟩
  split at h
  · rename_i hsuf
    obtain ⟨middle, rfl⟩ := split_middle hpre (List.isSuffixOf_iff_suffix.mp hsuf)
    simp only [slice_middle] at h
    split at h
    · cases h
    · rename_i hne
      exact .inr ⟨b, middle, hne, rfl⟩
  · cases h

theorem stalePin_middle (pin : Pin) (b : Builder) (middle : List Char) :
    stalePin pin (b.namePrefix ++ middle ++ dotBin) =
      if middle = pin.text then none else some middle := by
  have hsuf : dotBin.isSuffixOf (b.namePrefix ++ middle ++ dotBin) = true :=
    List.isSuffixOf_iff_suffix.mpr (List.suffix_append _ _)
  rw [stalePin, if_neg (by rw [List.append_assoc]; exact namePrefix_not_legacy b _)]
  simp only [List.append_assoc b.namePrefix, find_namePrefix]
  simp only [← List.append_assoc, hsuf, if_true, slice_middle]

theorem stalePin_isSome_iff {pin : Pin} {name : List Char} :
    (stalePin pin name).isSome ↔ name ∈ legacy ∨
      ∃ (b : Builder) (middle : List Char), middle ≠ pin.text ∧
        name = b.namePrefix ++ middle ++ dotBin := by
  constructor
  · exact name_of_stale
  · rintro (hl | ⟨b, middle, hne, rfl⟩)
    · rw [stalePin, if_pos hl]
      rfl
    · rw [stalePin_middle, if_neg hne]
      rfl

theorem namePrefix_inj {b b' : Builder} {rest rest' : List Char}
    (h : b.namePrefix ++ rest = b'.namePrefix ++ rest') : b = b' ∧ rest = rest' := by
  have hfind := find_namePrefix b rest
  rw [h, find_namePrefix] at hfind
  have hb : b = b' := by
    have hpre := Option.some.inj hfind
    cases b <;> cases b' <;> first | rfl | exact absurd hpre (by decide)
  subst hb
  exact ⟨rfl, List.append_cancel_left h⟩

namespace Build

theorem contextText_inj {w : Build} {b : Builder} {middle : List Char}
    (h : w.contextText = b.namePrefix ++ middle ++ dotBin) :
    w.builder = b ∧ w.pin.text = middle := by
  rw [contextText, List.append_assoc, List.append_assoc] at h
  obtain ⟨hb, hrest⟩ := namePrefix_inj h
  exact ⟨hb, List.append_cancel_right hrest⟩

theorem eq_of_contextText {w v : Build} (h : w.contextText = v.contextText) : w = v := by
  obtain ⟨hb, hpin⟩ := contextText_inj h
  exact Build.ext hb (Pin.ext hpin)

theorem tmpText_not_legacy (w : Build) : w.tmpText ∉ legacy := by
  rw [tmpText_eq, contextText, List.append_assoc, List.append_assoc]
  exact namePrefix_not_legacy _ _

theorem tmpText_ne (w : Build) (front : List Char) : w.tmpText ≠ front ++ dotBin := by
  intro h
  have hlast := congrArg List.getLast? h
  have htmp : (".tmp".toList).getLast? = some 'p' := by decide
  have hbin : dotBin.getLast? = some 'n' := by decide
  rw [tmpText_eq, List.getLast?_append, List.getLast?_append, htmp, hbin] at hlast
  simp at hlast

theorem tmp_ne_context (w v : Build) : w.tmp ≠ v.context :=
  fun h => tmpText_ne w _ (FileName.ofText_inj.mp h)

theorem tmp_inj {w v : Build} : w.tmp = v.tmp ↔ w = v := by
  constructor
  · intro h
    have htext := FileName.ofText_inj.mp h
    rw [tmpText_eq, tmpText_eq] at htext
    exact eq_of_contextText (List.append_cancel_right htext)
  · rintro rfl
    rfl

end Build

theorem stalePin_context {pin : Pin} {w : Build} :
    (stalePin pin w.contextText).isSome ↔ w.pin ≠ pin := by
  rw [Build.contextText, stalePin_middle]
  by_cases h : w.pin = pin
  · simp [h]
  · have htext : w.pin.text ≠ pin.text := fun ht => h (Pin.ext ht)
    simp [h, htext]

theorem stalePin_tmp (pin : Pin) (w : Build) : ¬ (stalePin pin w.tmpText).isSome := by
  rw [stalePin_isSome_iff]
  rintro (hl | ⟨b, middle, -, h⟩)
  · exact w.tmpText_not_legacy hl
  · exact w.tmpText_ne _ h

/-! ### The sweep -/

theorem sweep_ofText (pin : Pin) (dir : DataDir) {cs : List Char} (h : '/' ∉ cs) :
    sweepStaleContexts pin dir (.ofText cs h) =
      if (stalePin pin cs).isSome then none else dir (.ofText cs h) := by
  simp only [sweepStaleContexts, FileName.toStr_ofText]

theorem sweep_eq_some {pin : Pin} {dir : DataDir} {name : FileName} {f : File}
    (h : sweepStaleContexts pin dir name = some f) : dir name = some f := by
  unfold sweepStaleContexts at h
  split at h
  · exact h
  · split at h
    · cases h
    · exact h

theorem sweep_context (pin : Pin) (dir : DataDir) (w : Build) :
    sweepStaleContexts pin dir w.context = if w.pin = pin then dir w.context else none := by
  rw [Build.context, sweep_ofText]
  simp only [stalePin_context, ite_not]

theorem sweep_tmp (pin : Pin) (dir : DataDir) (w : Build) :
    sweepStaleContexts pin dir w.tmp = dir w.tmp := by
  rw [Build.tmp, sweep_ofText, if_neg (stalePin_tmp pin w)]

/-- What is removed has the name of a context or an unscoped one. -/
theorem sweep_removed {pin : Pin} {dir : DataDir} {name : FileName} (h : dir name ≠ none)
    (hgone : sweepStaleContexts pin dir name = none) :
    (∃ w : Build, name = w.context) ∨ ∃ text ∈ legacy, name.toStr = some text := by
  unfold sweepStaleContexts at hgone
  split at hgone
  · exact absurd hgone h
  rename_i text htext
  split at hgone
  · rename_i hstale
    rcases stalePin_isSome_iff.mp hstale with hl | ⟨b, middle, -, rfl⟩
    · exact .inr ⟨text, hl, htext⟩
    · obtain ⟨hslash, rfl⟩ := FileName.toStr_eq_some htext
      have hmiddle : '/' ∉ middle := fun hm => hslash (by simp [hm])
      exact .inl ⟨⟨b, ⟨middle, hmiddle⟩⟩, rfl⟩
  · exact absurd hgone h

/-! ### Leftovers -/

/-- The temporary file of the build is on disk. -/
def Leftover (w : Build) (dir : DataDir) : Prop := ∃ f, dir w.tmp = some f ∧ f.writer = some w

/-- A build starts where its context is missing, and ends between opening its temporary file and
the rename. -/
def CutsOff (w : Build) (s : DirState) : DirEvent → Prop
  | .build b _ (.writing _) => w = ⟨b, s.pin⟩ ∧ s.dir w.context = none
  | .build b _ .written => w = ⟨b, s.pin⟩ ∧ s.dir w.context = none
  | _ => False

/-- The same build is made good, or its temporary file is replaced or removed. -/
def MakesGood (w : Build) (s : DirState) : DirEvent → Prop
  | .build b _ .renamed => w = ⟨b, s.pin⟩ ∧ s.dir w.context = none
  | .other name _ => name = w.tmp
  | _ => False

theorem loadOrBuild_of_some {w : Build} {dir : DataDir} {f : File} (h : dir w.context = some f)
    (blob : List UInt8) (stop : Stop) : loadOrBuild w blob stop dir = dir := by
  simp only [loadOrBuild, h]

theorem loadOrBuild_of_none {w : Build} {dir : DataDir} (h : dir w.context = none)
    (blob : List UInt8) (stop : Stop) :
    loadOrBuild w blob stop dir = buildContextByProving w blob stop dir := by
  simp only [loadOrBuild, h]

/-- Another build's files are not touched. -/
theorem loadOrBuild_tmp_of_ne {w v : Build} (h : w ≠ v) (blob : List UInt8) (stop : Stop)
    (dir : DataDir) : loadOrBuild v blob stop dir w.tmp = dir w.tmp := by
  have htmp : w.tmp ≠ v.tmp := fun heq => h (Build.tmp_inj.mp heq)
  have hctx := Build.tmp_ne_context w v
  cases hv : dir v.context with
  | some f => rw [loadOrBuild_of_some hv]
  | none =>
    rw [loadOrBuild_of_none hv]
    cases stop <;> simp [buildContextByProving, Function.update_of_ne, htmp, hctx]

theorem boot_leftover {w : Build} {s : DirState} {pin : Pin} :
    Leftover w (dirStep s (.boot pin)).dir ↔ Leftover w s.dir := by
  simp only [Leftover, dirStep, sweep_tmp]

theorem other_leftover {w : Build} {s : DirState} {name : FileName}
    {content : Option (List UInt8)} :
    Leftover w (dirStep s (.other name content)).dir ↔ Leftover w s.dir ∧ name ≠ w.tmp := by
  by_cases hname : name = w.tmp
  · subst hname
    cases content <;> simp [Leftover, dirStep]
  · simp [Leftover, dirStep, Function.update_of_ne (Ne.symm hname), hname]

theorem build_leftover {w : Build} {s : DirState} {b : Builder} {blob : List UInt8}
    {stop : Stop} :
    Leftover w (dirStep s (.build b blob stop)).dir ↔
      CutsOff w s (.build b blob stop) ∨
        Leftover w s.dir ∧ ¬ MakesGood w s (.build b blob stop) := by
  simp only [dirStep]
  by_cases hw : w = ⟨b, s.pin⟩
  · rw [← hw]
    cases hctx : s.dir w.context with
    | some f =>
      -- the context is there and is read
      rw [loadOrBuild_of_some hctx]
      cases stop <;> simp [CutsOff, MakesGood, hctx]
    | none =>
      rw [loadOrBuild_of_none hctx]
      have hne := Build.tmp_ne_context w w
      cases stop <;>
        simp [CutsOff, MakesGood, buildContextByProving, Leftover, hctx, ← hw, hne]
  · rw [Leftover, loadOrBuild_tmp_of_ne hw]
    cases stop <;> simp [CutsOff, MakesGood, Leftover, hw]

/-- A temporary file is there if its build was just cut off, or it was there and not cleared. -/
theorem step_leftover (w : Build) (s : DirState) (e : DirEvent) :
    Leftover w (dirStep s e).dir ↔ CutsOff w s e ∨ Leftover w s.dir ∧ ¬ MakesGood w s e := by
  cases e with
  | boot pin => simp [boot_leftover, CutsOff, MakesGood]
  | build b blob stop => exact build_leftover
  | other name content => simp [other_leftover, CutsOff, MakesGood]

/-! ### Every history -/

/-- A build's files have its names. -/
def Named (dir : DataDir) : Prop :=
  ∀ name f w, dir name = some f → f.writer = some w → name = w.context ∨ name = w.tmp

theorem Named.update {dir : DataDir} (h : Named dir) {file : FileName} {f : Option File}
    (hf : ∀ w, f.bind File.writer = some w → file = w.context ∨ file = w.tmp) :
    Named (Function.update dir file f) := by
  intro name g w hg hw
  by_cases hname : name = file
  · subst hname
    rw [Function.update_self] at hg
    exact hf w (by rw [hg]; exact hw)
  · rw [Function.update_of_ne hname] at hg
    exact h name g w hg hw

theorem Named.build {dir : DataDir} (h : Named dir) (v : Build) (blob : List UInt8)
    (stop : Stop) : Named (loadOrBuild v blob stop dir) := by
  have htmp : ∀ {content : List UInt8} {w : Build},
      (some (⟨content, some v⟩ : File)).bind File.writer = some w →
        v.tmp = w.context ∨ v.tmp = w.tmp := by
    rintro content w ⟨⟩
    exact .inr rfl
  cases hctx : dir v.context with
  | some f => rwa [loadOrBuild_of_some hctx]
  | none =>
    rw [loadOrBuild_of_none hctx]
    cases stop with
    | proving => exact h
    | writing n => exact h.update fun _ => htmp
    | written => exact h.update fun _ => htmp
    | renamed =>
      refine (h.update (f := none) (by simp)).update ?_
      rintro w ⟨⟩
      exact .inl rfl

theorem Named.step {s : DirState} (h : Named s.dir) (e : DirEvent) :
    Named (dirStep s e).dir := by
  cases e with
  | boot pin => exact fun name f w hf => h name f w (sweep_eq_some hf)
  | build b blob stop => exact h.build _ blob stop
  | other name content => exact h.update (by cases content <;> simp)

theorem named_run (others : FileName → Option (List UInt8)) (pin : Pin)
    (history : List DirEvent) :
    Named ((boots others pin).run (boots others pin).init history).dir := by
  refine (Machine.reach_run_free (boots others pin) history).inv (I := fun s => Named s.dir) ?_ ?_
  · intro name f w hf hw
    simp only [boots, Option.map_eq_some_iff] at hf
    obtain ⟨c, -, rfl⟩ := hf
    cases hw
  · exact fun s e h _ => h.step e

/-- Some build of the pair was cut off and not made good since. -/
def CutOff (others : FileName → Option (List UInt8)) (pin : Pin) (history : List DirEvent)
    (w : Build) : Prop :=
  (boots others pin).Since (CutsOff w) (MakesGood w) (boots others pin).init history

theorem leftover_iff (others : FileName → Option (List UInt8)) (pin : Pin)
    (history : List DirEvent) (w : Build) :
    Leftover w ((boots others pin).run (boots others pin).init history).dir ↔
      CutOff others pin history w := by
  have hnone : ¬ Leftover w (boots others pin).init.dir := by
    rintro ⟨f, hf, hw⟩
    simp only [boots, Option.map_eq_some_iff] at hf
    obtain ⟨c, -, rfl⟩ := hf
    cases hw
  have hsince := Machine.run_iff_since (m := boots others pin)
    (P := fun s : DirState => Leftover w s.dir) (step_leftover w) (boots others pin).init history
  refine hsince.trans ?_
  simp only [CutOff, hnone, false_and, or_false]

/-- What the sweep of a boot at `pin` is for. -/
structure Swept (pin : Pin) (before after : DataDir) : Prop where
  reclaimed : ∀ name f w, after name = some f → f.writer = some w → w.pin = pin
  kept : ∀ w : Build, w.pin = pin → after w.context = before w.context
  safe : ∀ name, before name ≠ none → after name = none →
    (∃ w : Build, name = w.context ∨ name = w.tmp) ∨ ∃ text ∈ legacy, name.toStr = some text

/-- After every history, and whatever else is in the directory: the sweep does what it is for
exactly if no build of another pin was cut off and not made good since. -/
theorem sweep_reclaims_iff (others : FileName → Option (List UInt8)) (pin₀ : Pin)
    (history : List DirEvent) (pin : Pin) :
    let s := (boots others pin₀).run (boots others pin₀).init history
    Swept pin s.dir (dirStep s (.boot pin)).dir ↔
      ∀ w : Build, w.pin ≠ pin → ¬ CutOff others pin₀ history w := by
  intro s
  have hnamed : Named s.dir := named_run others pin₀ history
  constructor
  · intro h w hpin hcut
    obtain ⟨f, hf, hw⟩ := (leftover_iff others pin₀ history w).mpr hcut
    exact hpin (h.reclaimed w.tmp f w ((sweep_tmp pin s.dir w).trans hf) hw)
  · intro h
    refine ⟨?_, ?_, ?_⟩
    · intro name f w hf hw
      by_contra hpin
      rcases hnamed name f w (sweep_eq_some hf) hw with rfl | rfl
      · have hgone := (sweep_context pin s.dir w).symm.trans hf
        rw [if_neg hpin] at hgone
        cases hgone
      · exact h w hpin ((leftover_iff others pin₀ history w).mp ⟨f, sweep_eq_some hf, hw⟩)
    · intro w hpin
      exact (sweep_context pin s.dir w).trans (if_pos hpin)
    · intro name hbefore hafter
      exact (sweep_removed hbefore hafter).imp_left fun ⟨w, hw⟩ => ⟨w, .inl hw⟩

/-- A build is cut off before its rename, and the next boot is at another pin. -/
theorem leftover_stays : ¬ ∀ others pin₀ history pin,
    let s := (boots others pin₀).run (boots others pin₀).init history
    Swept pin s.dir (dirStep s (.boot pin)).dir := by
  intro h
  let before : Pin := ⟨"1372f270".toList, by decide⟩
  let w : Build := ⟨.dense, before⟩
  let now : Pin := ⟨"c8d6b13e".toList, by decide⟩
  let s₀ := (boots (fun _ => none) before).init
  let cut : DirEvent := .build .dense [0] .written
  have hcut : CutsOff w s₀ cut := ⟨rfl, rfl⟩
  have hleft : Leftover w (dirStep (dirStep s₀ cut) (.boot now)).dir :=
    boot_leftover.mpr ((step_leftover w s₀ cut).mpr (.inl hcut))
  obtain ⟨f, hf, hw⟩ := hleft
  have hswept : Swept now (dirStep s₀ cut).dir (dirStep (dirStep s₀ cut) (.boot now)).dir :=
    h (fun _ => none) before [cut] now
  exact absurd (hswept.reclaimed w.tmp f w hf hw) (by decide)

end Registry
end Nockmark
