import Mathlib.Data.List.Nodup
import Yikes.Ruby.OptionParser

/-!
# Arguments — the ways an option can be written

`Written` are the forms of an option in an argument list: short or long, its value attached or in the
next argument, several short ones in one argument, and operands in between.  When no two switches share
a name (`Distinct`), reading gives back what was written, whatever the forms (`read_written`).
-/

namespace Ruby
namespace OptionParser

variable {ω : Type}

/-- What is written at one place of an argument list. -/
inductive Written (ω : Type)
  | operand (text : Str)
  /-- `-abc` -/
  | short (first : Switch ω) (more : List (Switch ω))
  /-- `-abVALUE` -/
  | attached (flags : List (Switch ω)) (switch : Switch ω) (value : Str)
  /-- `-ab VALUE` -/
  | separate (flags : List (Switch ω)) (switch : Switch ω) (value : Str)
  /-- `--name` -/
  | long (switch : Switch ω)
  /-- `--name=VALUE` -/
  | longAttached (switch : Switch ω) (value : Str)
  /-- `--name VALUE` -/
  | longSeparate (switch : Switch ω) (value : Str)

/-- The letter of a short option. -/
def Switch.letter (switch : Switch ω) : Char :=
  switch.short.getD '-'

def Switch.given (switch : Switch ω) (value : Option Str) : Found ω where
  option := switch.option
  value := value

namespace Written

def letters (flags : List (Switch ω)) : Str :=
  flags.map Switch.letter

def arguments : Written ω → List Str
  | .operand text => [text]
  | .short first more => ['-' :: first.letter :: letters more]
  | .attached flags switch value => ['-' :: (letters flags ++ switch.letter :: value)]
  | .separate flags switch value => ['-' :: (letters flags ++ [switch.letter]), value]
  | .long switch => ['-' :: '-' :: switch.long]
  | .longAttached switch value => ['-' :: '-' :: (switch.long ++ '=' :: value)]
  | .longSeparate switch value => ['-' :: '-' :: switch.long, value]

def found : Written ω → List (Found ω)
  | .operand _ => []
  | .short first more => (first :: more).map fun flag => flag.given none
  | .attached flags switch value | .separate flags switch value =>
      flags.map (fun flag => flag.given none) ++ [switch.given (some value)]
  | .long switch => [switch.given none]
  | .longAttached switch value | .longSeparate switch value => [switch.given (some value)]

end Written

/-- No two switches share a name, and no name can be taken for anything else. -/
structure Distinct (lists : List (List (Switch ω))) : Prop where
  longs : (lists.flatten.map Switch.long).Nodup
  shorts : (lists.flatten.filterMap Switch.short).Nodup
  long : ∀ switch ∈ lists.flatten, switch.long ≠ [] ∧ '=' ∉ switch.long
  short : ∀ switch ∈ lists.flatten, switch.short ≠ some '-' ∧ switch.short ≠ some '='

/-- A switch that has a short name. -/
def IsShort (lists : List (List (Switch ω))) (argument : Bool) (switch : Switch ω) : Prop :=
  switch ∈ lists.flatten ∧ switch.short.isSome = true ∧ switch.argument = argument

def IsLong (lists : List (List (Switch ω))) (argument : Bool) (switch : Switch ω) : Prop :=
  switch ∈ lists.flatten ∧ switch.argument = argument

/-- The switches are among those of the parser, and take a value if they have one here. -/
def Written.Fits (lists : List (List (Switch ω))) : Written ω → Prop
  | .operand text => text.head? ≠ some '-'
  | .short first more => ∀ flag ∈ first :: more, IsShort lists false flag
  | .attached flags switch value =>
      (∀ flag ∈ flags, IsShort lists false flag) ∧ IsShort lists true switch ∧ value ≠ []
  | .separate flags switch _ =>
      (∀ flag ∈ flags, IsShort lists false flag) ∧ IsShort lists true switch
  | .long switch => IsLong lists false switch
  | .longAttached switch _ | .longSeparate switch _ => IsLong lists true switch

/-! ## Finding the switch that is meant -/

theorem find?_of_nodup {α β : Type} [DecidableEq β] {f : α → β} {xs : List α}
    (h : (xs.map f).Nodup) {x : α} (hx : x ∈ xs) : xs.find? (fun y => f y = f x) = some x := by
  induction xs with
  | nil => cases hx
  | cons y xs ih =>
      rw [List.map_cons, List.nodup_cons] at h
      rcases List.mem_cons.1 hx with rfl | hx
      · simp
      · have hne : f y ≠ f x := fun heq => h.1 (heq ▸ List.mem_map_of_mem hx)
        rw [List.find?_cons_of_neg (by simpa using hne), ih h.2 hx]

theorem find?_of_nodup_filterMap {α β : Type} [DecidableEq β] {f : α → Option β} {xs : List α}
    (h : (xs.filterMap f).Nodup) {x : α} {b : β} (hx : x ∈ xs) (hb : f x = some b) :
    xs.find? (fun y => f y = some b) = some x := by
  induction xs with
  | nil => cases hx
  | cons y xs ih =>
      rcases List.mem_cons.1 hx with rfl | hx
      · simp [hb]
      · by_cases hy : f y = some b
        · rw [List.filterMap_cons_some hy, List.nodup_cons] at h
          exact absurd (List.mem_filterMap.2 ⟨x, hx, hb⟩) h.1
        · have hrest : (xs.filterMap f).Nodup := h.sublist (by
            rw [List.filterMap_cons]
            split
            · exact List.Sublist.refl _
            · exact List.sublist_cons_self _ _)
          rw [List.find?_cons_of_neg (by simpa using hy), ih hrest hx]

section Read

variable {lists : List (List (Switch ω))} (hdistinct : Distinct lists)

include hdistinct

theorem searchShort_letter {argument : Bool} {switch : Switch ω} (h : IsShort lists argument switch) :
    searchShort lists switch.letter = some switch ∧ switch.letter ≠ '-' ∧ switch.letter ≠ '=' := by
  rcases Option.isSome_iff_exists.1 h.2.1 with ⟨c, hc⟩
  have hletter : switch.letter = c := by simp [Switch.letter, hc]
  have hshort := hdistinct.short switch h.1
  rw [hc] at hshort
  refine ⟨?_, ?_, ?_⟩
  · rw [hletter, searchShort]
    exact find?_of_nodup_filterMap hdistinct.shorts h.1 hc
  · rw [hletter]
    rintro rfl
    exact hshort.1 rfl
  · rw [hletter]
    rintro rfl
    exact hshort.2 rfl

theorem completeLong_long (icase : Bool) {switch : Switch ω} (h : switch ∈ lists.flatten) :
    completeLong icase lists switch.long = .ok switch := by
  rw [completeLong, find?_of_nodup hdistinct.longs h]

/-! ## Reading what was written -/

/-- Flags in front of something that can follow them. -/
theorem readSwitches_flags (next : Option Str) {flags : List (Switch ω)} {text : Str}
    (hflags : ∀ flag ∈ flags, IsShort lists false flag) (htext : text.head? ≠ some '=') :
    readSwitches lists next (Written.letters flags ++ text) =
      (flags.map (fun flag => flag.given none) ++ (readSwitches lists next text).1,
        (readSwitches lists next text).2) := by
  induction flags with
  | nil => rfl
  | cons flag flags ih =>
      have hflag := hflags flag (by simp)
      have hletter := searchShort_letter hdistinct hflag
      have hrest := ih fun other hother => hflags other (by simp [hother])
      have hcons : Written.letters (flag :: flags) ++ text =
          flag.letter :: (Written.letters flags ++ text) := rfl
      have hhead : (Written.letters flags ++ text).head? ≠ some '=' := by
        cases flags with
        | nil => exact htext
        | cons other flags =>
            have hother := searchShort_letter hdistinct (hflags other (by simp))
            simpa [Written.letters] using hother.2.2
      rw [hcons, readSwitches, if_neg hletter.2.1, hletter.1]
      simp only [hflag.2.2, Bool.false_eq_true, if_false]
      by_cases hnil : Written.letters flags ++ text = []
      · -- the last letter of the argument
        rw [if_pos hnil]
        rcases List.append_eq_nil_iff.1 hnil with ⟨hflags, rfl⟩
        have hflags' : flags = [] := by simpa [Written.letters] using hflags
        subst hflags'
        rfl
      · rw [if_neg hnil, if_neg hhead, hrest]
        rfl

theorem takeWhile_long {switch : Switch ω} (h : switch ∈ lists.flatten) (tail : Str) :
    (switch.long ++ '=' :: tail).takeWhile (· != '=') = switch.long ∧
      switch.long.takeWhile (· != '=') = switch.long ∧
      (switch.long ++ '=' :: tail).dropWhile (· != '=') = '=' :: tail := by
  have hall : ∀ c ∈ switch.long, (c != '=') = true := by
    intro c hc
    have hne : c ≠ '=' := by
      rintro rfl
      exact (hdistinct.long switch h).2 hc
    simpa using hne
  refine ⟨?_, List.takeWhile_eq_self_iff.2 hall, ?_⟩
  · rw [List.takeWhile_append_of_pos hall]
    simp
  · rw [List.dropWhile_append_of_pos hall]
    simp

/-- The whole argument is the name. -/
theorem readLong_name (next : Option Str) {switch : Switch ω} (h : switch ∈ lists.flatten) :
    readLong lists next switch.long =
      if switch.argument then required switch none next else ([switch.given none], .next) := by
  have hlong := hdistinct.long switch h
  have hcontains : switch.long.contains '=' = false := by simpa using hlong.2
  simp only [readLong, (takeWhile_long hdistinct h []).2.1, hcontains, Bool.false_eq_true, if_false,
    hlong.1, completeLong_long hdistinct true h, Option.isSome_none]
  rfl

theorem readLong_attached (next : Option Str) (value : Str) {switch : Switch ω}
    (h : IsLong lists true switch) :
    readLong lists next (switch.long ++ '=' :: value) =
      ([switch.given (some value)], .next) := by
  have hlong := hdistinct.long switch h.1
  have hkey := takeWhile_long hdistinct h.1 value
  have hcontains : (switch.long ++ '=' :: value).contains '=' = true := by simp
  simp only [readLong, hkey.1, hkey.2.2, hcontains, if_true, hlong.1, if_false,
    completeLong_long hdistinct true h.1, h.2, List.drop_one, List.tail_cons]
  rfl

/-- A short option with a value, behind its flags. -/
theorem readSwitches_value (next : Option Str) {flags : List (Switch ω)} {switch : Switch ω}
    (hflags : ∀ flag ∈ flags, IsShort lists false flag) (hswitch : IsShort lists true switch)
    (text : Str) :
    readSwitches lists next (Written.letters flags ++ switch.letter :: text) =
      (flags.map (fun flag => flag.given none) ++
          (required switch (if text = [] then none else some text) next).1,
        (required switch (if text = [] then none else some text) next).2) := by
  have hletter := searchShort_letter hdistinct hswitch
  have hhead : (switch.letter :: text).head? ≠ some '=' := by simpa using hletter.2.2
  rw [readSwitches_flags hdistinct next hflags hhead, readSwitches, if_neg hletter.2.1, hletter.1]
  simp only [hswitch.2.2, if_true]

/-- What was written at the front is read at the front. -/
theorem read_cons {written : Written ω} (h : written.Fits lists) (rest : List Str) :
    read lists (written.arguments ++ rest) =
      (written.found ++ (read lists rest).1, (read lists rest).2) := by
  cases written with
  | operand text =>
      have hhead : text.head? ≠ some '-' := h
      simp [Written.arguments, Written.found, read, hhead]
  | short first more =>
      have hnone : (([] : Str).head?) ≠ some '=' := by simp
      have hread := readSwitches_flags hdistinct rest.head? h hnone
      rw [List.append_nil] at hread
      have hletters : Written.letters (first :: more) = first.letter :: Written.letters more := rfl
      rw [hletters] at hread
      simp [Written.arguments, Written.found, read, hread, readSwitches]
  | attached flags switch value =>
      have hread := readSwitches_value hdistinct rest.head? h.1 h.2.1 value
      rw [if_neg h.2.2] at hread
      simp [Written.arguments, Written.found, read, hread, required, Switch.given]
  | separate flags switch value =>
      have hread := readSwitches_value hdistinct (some value) h.1 h.2 []
      simp [Written.arguments, Written.found, read, hread, required, Switch.given]
  | long switch =>
      have hread := readLong_name hdistinct rest.head? h.1
      simp [Written.arguments, Written.found, read, readSwitches, hread, h.2]
  | longAttached switch value =>
      have hread := readLong_attached hdistinct rest.head? value h
      simp [Written.arguments, Written.found, read, readSwitches, hread]
  | longSeparate switch value =>
      have hread := readLong_name hdistinct (some value) h.1
      simp [Written.arguments, Written.found, read, readSwitches, hread, h.2, required, Switch.given]

/-- Reading gives back what was written, and then reads on. -/
theorem read_append {written : List (Written ω)} (h : ∀ w ∈ written, w.Fits lists)
    (rest : List Str) :
    read lists (written.flatMap Written.arguments ++ rest) =
      (written.flatMap Written.found ++ (read lists rest).1, (read lists rest).2) := by
  induction written with
  | nil => rfl
  | cons w written ih =>
      have hrest := ih fun w' hw' => h w' (by simp [hw'])
      rw [List.flatMap_cons, List.append_assoc, read_cons hdistinct (h w (by simp)), hrest]
      simp

theorem read_written {written : List (Written ω)} (h : ∀ w ∈ written, w.Fits lists) :
    read lists (written.flatMap Written.arguments) = (written.flatMap Written.found, none) := by
  have hread := read_append hdistinct h []
  rw [List.append_nil] at hread
  rw [hread]
  simp [read]

end Read

end OptionParser
end Ruby
