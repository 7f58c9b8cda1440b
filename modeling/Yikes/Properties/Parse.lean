import Yikes.Properties.Modes
import Yikes.Ruby.Arguments

/-!
# Parse — what the options come to

However the options are written, `parse` gives the real path of the last directory of each kind, the
last rate and port, and the background mode if an option asks for it (`settle`); it stops at the first
option that asks for the help or the version, and at the first directory that is not there, whatever
comes behind (`parse_written`).

`Askable` are the results that some argument list has: no other can come out of `parse`, and
`writtenOf` writes one for each of them (`parse_some_iff`).
-/

namespace Yikes

open Ruby
open Ruby.OptionParser (Found Switch Written Distinct)

namespace Main

theorem distinct_switches : Distinct switches where
  longs := by decide
  shorts := by decide
  long := by decide
  short := by decide

/-! ## What a list of options comes to -/

/-- The value of the last option of a kind. -/
def lastOf (option : Opt) (found : List (Found Opt)) : Option Str :=
  (found.reverse.find? fun f => f.option = option).map fun f => f.value.getD []

/-- A directory that is given becomes its real path. -/
def dirOf (t : Tree) (default : Str) : Option Str → Str
  | some x => ((t.realpath x).toOption.map Loc.text).getD x
  | none => default

def levelOf (level : Level) (found : List (Found Opt)) : Level :=
  match found.reverse.find? fun f => f.option = .debug || f.option = .verbose with
  | some f => if f.option = .debug then .DEBUG else .INFO
  | none => level

/-- What is set when the options come from `p`. -/
def settle (t : Tree) (p : Parsing) (found : List (Found Opt)) : Parsing where
  results :=
    { target := dirOf t p.results.target (lastOf .target found)
      library := dirOf t p.results.library (lastOf .library found)
      background :=
        p.results.background || found.any fun f => f.option = .background || f.option = .rate
      rate := (lastOf .rate found).or p.results.rate
      port := (lastOf .port found).or p.results.port }
  level := levelOf p.level found

/-- An option whose block neither raises nor returns from `parse`. -/
structure Runs (t : Tree) (found : Found Opt) : Prop where
  help : found.option ≠ .help
  version : found.option ≠ .version
  dir : found.option = .library ∨ found.option = .target →
    ∃ loc, t.realpath (found.value.getD []) = .ok loc

theorem lastOf_cons (option : Opt) (x : Found Opt) (found : List (Found Opt)) :
    lastOf option (x :: found) =
      (lastOf option found).or (if x.option = option then some (x.value.getD []) else none) := by
  unfold lastOf
  rw [List.reverse_cons, List.find?_append]
  cases found.reverse.find? fun f => f.option = option with
  | some f => rfl
  | none => by_cases hx : x.option = option <;> simp [hx]

theorem levelOf_cons (level : Level) (x : Found Opt) (found : List (Found Opt)) :
    levelOf level (x :: found) = levelOf (levelOf level [x]) found := by
  unfold levelOf
  rw [List.reverse_cons, List.find?_append]
  cases found.reverse.find? fun f => f.option = .debug || f.option = .verbose with
  | some f => rfl
  | none => rfl

@[simp]
theorem dirOf_none (t : Tree) (default : Str) : dirOf t default none = default := rfl

theorem dirOf_or (t : Tree) (default : Str) (later earlier : Option Str) :
    dirOf t default (later.or earlier) = dirOf t (dirOf t default earlier) later := by
  cases later <;> rfl

theorem settle_nil (t : Tree) (p : Parsing) : settle t p [] = p := by
  simp [settle, lastOf, levelOf]

theorem settle_cons (t : Tree) (p : Parsing) (x : Found Opt) (found : List (Found Opt)) :
    settle t p (x :: found) = settle t (settle t p [x]) found := by
  have hone : ∀ option, lastOf option [x] =
      if x.option = option then some (x.value.getD []) else none := by
    intro option
    rw [lastOf_cons]
    rfl
  simp only [settle, lastOf_cons _ x found, ← hone, dirOf_or, ← levelOf_cons, Option.or_assoc,
    List.any_cons, List.any_nil, Bool.or_false, Bool.or_assoc]

theorem settle_append (t : Tree) (p : Parsing) (before after : List (Found Opt)) :
    settle t p (before ++ after) = settle t (settle t p before) after := by
  induction before generalizing p with
  | nil => rw [List.nil_append, settle_nil]
  | cons x before ih => rw [List.cons_append, settle_cons, ih, ← settle_cons]

/-! ## The blocks -/

theorem realpath_of_ok {t : Tree} {x : Str} {loc : Loc} (h : t.realpath x = .ok loc) (default : Str) :
    realpath t x = .ok (dirOf t default (some x)) := by
  simp [realpath, dirOf, h, Except.toOption]

/-- One block sets what its option comes to. -/
theorem handle_eq {t : Tree} {found : Found Opt} (h : Runs t found) (p : Parsing) :
    handle t p found = .ok (some (settle t p [found])) := by
  rcases found with ⟨option, value⟩
  cases option with
  | help => exact absurd rfl h.help
  | version => exact absurd rfl h.version
  | library =>
      rcases h.dir (Or.inl rfl) with ⟨loc, hloc⟩
      simp [handle, realpath_of_ok hloc p.results.library, settle, lastOf, levelOf, dirOf, Except.map]
  | target =>
      rcases h.dir (Or.inr rfl) with ⟨loc, hloc⟩
      simp [handle, realpath_of_ok hloc p.results.target, settle, lastOf, levelOf, dirOf, Except.map]
  | _ => simp [handle, settle, lastOf, levelOf]

theorem handleAll_append {t : Tree} {found : List (Found Opt)} (h : ∀ f ∈ found, Runs t f)
    (rest : List (Found Opt)) (p : Parsing) :
    handleAll t (found ++ rest) p = handleAll t rest (settle t p found) := by
  induction found generalizing p with
  | nil => rw [List.nil_append, settle_nil]
  | cons x found ih =>
      have hrest := ih (fun f hf => h f (by simp [hf])) (settle t p [x])
      rw [List.cons_append, handleAll, handle_eq (h x (by simp)), settle_cons t p x found]
      exact hrest

theorem handleAll_eq {t : Tree} {found : List (Found Opt)} (h : ∀ f ∈ found, Runs t f)
    (p : Parsing) : handleAll t found p = .ok (some (settle t p found)) := by
  have hall := handleAll_append h [] p
  rwa [List.append_nil] at hall

/-- Nothing behind an option that stops `parse` is looked at. -/
theorem handleAll_stop {t : Tree} {p : Parsing} {x : Found Opt}
    {result : Except Raised (Option Parsing)} (hstop : handle t p x = result)
    (hnot : ∀ p', result ≠ .ok (some p')) (rest : List (Found Opt)) :
    handleAll t (x :: rest) p = result := by
  rw [handleAll, hstop]
  split
  · next p' => exact absurd rfl (hnot p')
  · rfl

/-- Options that run through come to what they set. -/
theorem parse_of_runs {t : Tree} {written : List (Written Opt)} (hfits : ∀ w ∈ written, w.Fits switches)
    (hruns : ∀ f ∈ written.flatMap Written.found, Runs t f) (level : Level) :
    parse t level (written.flatMap Written.arguments) =
      .ok (some (settle t { results := {}, level := level } (written.flatMap Written.found))) := by
  rw [parse, OptionParser.read_written distinct_switches hfits]
  dsimp only
  rw [handleAll_eq hruns]

/-- `parse` gives what the options come to, however they are written; the first option that asks for the
help or the version ends it, and so does the first directory that is not there, be it in an argument of
its own or behind other options in one argument. -/
theorem parse_written {t : Tree} {written : List (Written Opt)}
    (hfits : ∀ w ∈ written, w.Fits switches)
    (hruns : ∀ f ∈ written.flatMap Written.found, Runs t f) (level : Level) :
    parse t level (written.flatMap Written.arguments) =
        .ok (some (settle t { results := {}, level := level } (written.flatMap Written.found))) ∧
      ∀ (w : Written Opt) (before : List (Found Opt)) (x : Found Opt) (more : List (Found Opt))
        (rest : List Str), w.Fits switches → w.found = before ++ x :: more → (∀ f ∈ before, Runs t f) →
        (x.option = .help ∨ x.option = .version →
          parse t level (written.flatMap Written.arguments ++ (w.arguments ++ rest)) = .ok none) ∧
        (x.option = .library ∨ x.option = .target → ∀ e, t.realpath (x.value.getD []) = .error e →
          parse t level (written.flatMap Written.arguments ++ (w.arguments ++ rest)) =
            .error (.fault (.errno e))) := by
  refine ⟨parse_of_runs hfits hruns level, ?_⟩
  · intro w before x more rest hw hfound hbefore
    -- the blocks in front of it run, and its own decides
    have hparse : ∀ result : Except Raised (Option Parsing), (∀ p', result ≠ .ok (some p')) →
        (∀ p, handle t p x = result) →
        parse t level (written.flatMap Written.arguments ++ (w.arguments ++ rest)) = result := by
      intro result hnot hstop
      rw [parse, OptionParser.read_append distinct_switches hfits,
        OptionParser.read_cons distinct_switches hw, hfound]
      dsimp only
      rw [handleAll_append hruns, List.append_assoc, handleAll_append hbefore, List.cons_append,
        handleAll_stop (hstop _) hnot]
      split
      · next p' => exact absurd rfl (hnot p')
      · rfl
    constructor
    · intro hoption
      refine hparse (.ok none) (fun p' h => by cases h) fun p => ?_
      rcases hoption with hoption | hoption <;> simp [handle, hoption]
    · intro hoption e herror
      refine hparse _ (fun p' h => by cases h) fun p => ?_
      rcases hoption with hoption | hoption <;> simp [handle, hoption, realpath, herror, Except.map]

end Main

namespace Sample

open Main

/-- `-blv --target=t` -/
def written : List (Written Opt) :=
  [.attached
      [{ option := .background, short := some 'b', long := "background".toList }]
      { option := .library, short := some 'l', long := "library".toList, argument := true }
      "v".toList,
    .longAttached
      { option := .target, short := some 't', long := "target".toList, argument := true }
      "t".toList]

theorem fits_written : ∀ w ∈ written, w.Fits switches := by
  simp [written, Written.Fits, OptionParser.IsShort, OptionParser.IsLong, switches]

theorem runs_written : ∀ f ∈ written.flatMap Written.found, Runs dirsTree f := by
  intro f hf
  have hcases : f = { option := .background, value := none } ∨
      f = { option := .library, value := some "v".toList } ∨
      f = { option := .target, value := some "t".toList } := by
    simpa [written, Written.found, OptionParser.Switch.given] using hf
  rcases hcases with rfl | rfl | rfl
  · exact ⟨by decide, by decide, by simp⟩
  · exact ⟨by decide, by decide, fun _ => ⟨["v".toList], by decide +kernel⟩⟩
  · exact ⟨by decide, by decide, fun _ => ⟨["t".toList], by decide +kernel⟩⟩

/-- `-bl x` -/
def writtenMissing : Written Opt :=
  .separate [{ option := .background, short := some 'b', long := "background".toList }]
    { option := .library, short := some 'l', long := "library".toList, argument := true }
    "x".toList

theorem fits_writtenMissing : writtenMissing.Fits switches := by
  simp [writtenMissing, Written.Fits, OptionParser.IsShort, switches]

end Sample

/-- With `-bl x` behind them, the same options raise: there is no directory `x`. -/
theorem parse_written_sample :
    Main.parse Sample.dirsTree .ERROR ["-blv".toList, "--target=t".toList] =
        .ok (some Sample.givenParsing) ∧
      Main.parse Sample.dirsTree .ERROR
          ["-blv".toList, "--target=t".toList, "-bl".toList, "x".toList] =
        .error (.fault (.errno .ENOENT)) := by
  rcases Main.parse_written Sample.fits_written Sample.runs_written .ERROR with ⟨hparse, hstop⟩
  constructor
  · have hsettle : Main.settle Sample.dirsTree { results := {}, level := .ERROR }
        (Sample.written.flatMap Written.found) = Sample.givenParsing := by decide +kernel
    rwa [hsettle] at hparse
  · have hbefore : ∀ f ∈ [(⟨.background, none⟩ : Found Opt)], Main.Runs Sample.dirsTree f := by
      intro f hf
      rw [List.mem_singleton.1 hf]
      exact ⟨by decide, by decide, by simp⟩
    exact (hstop Sample.writtenMissing [⟨.background, none⟩] ⟨.library, some "x".toList⟩ [] []
      Sample.fits_writtenMissing rfl hbefore).2 (Or.inl rfl) .ENOENT (by decide +kernel)

namespace Main

/-! ## The results that can be asked for -/

/-- Each directory is the default or a real path, a rate implies the background mode, and the level is
the one before or one that an option sets. -/
structure Askable (t : Tree) (level : Level) (p : Parsing) : Prop where
  library : p.results.library = ".".toList ∨ realpath t p.results.library = .ok p.results.library
  target : p.results.target = "iPod".toList ∨ realpath t p.results.target = .ok p.results.target
  background : p.results.rate.isSome = true → p.results.background = true
  level : p.level = level ∨ p.level = .DEBUG ∨ p.level = .INFO

theorem askable_default (t : Tree) (level : Level) :
    Askable t level { results := {}, level := level } where
  library := Or.inl rfl
  target := Or.inl rfl
  background := fun h => by cases h
  level := Or.inl rfl

theorem realpath_realpath {t : Tree} {x dir : Str} (h : realpath t x = .ok dir) :
    realpath t dir = .ok dir := by
  unfold realpath at h
  cases hreal : t.realpath x with
  | error e => simp [hreal] at h
  | ok loc =>
      have hdir : Loc.text loc = dir := by simpa [hreal] using h
      rw [← hdir, realpath, Tree.realpath_text hreal]

/-- Every block keeps to what can be asked for. -/
theorem Askable.handle {t : Tree} {level : Level} {p p' : Parsing} (h : Askable t level p)
    {found : Found Opt} (hp : Main.handle t p found = .ok (some p')) : Askable t level p' := by
  unfold Main.handle at hp
  cases hoption : found.option with
  | library =>
      cases hreal : realpath t (found.value.getD []) with
      | error e => simp [hoption, hreal, Except.map] at hp
      | ok dir =>
          have hp' : { p with results := { p.results with library := dir } } = p' := by
            simpa [hoption, hreal, Except.map] using hp
          exact hp' ▸ { h with library := Or.inr (realpath_realpath hreal) }
  | target =>
      cases hreal : realpath t (found.value.getD []) with
      | error e => simp [hoption, hreal, Except.map] at hp
      | ok dir =>
          have hp' : { p with results := { p.results with target := dir } } = p' := by
            simpa [hoption, hreal, Except.map] using hp
          exact hp' ▸ { h with target := Or.inr (realpath_realpath hreal) }
  | help => simp [hoption] at hp
  | version => simp [hoption] at hp
  | background | rate =>
      simp only [hoption, Except.ok.injEq, Option.some.injEq] at hp
      exact hp ▸ { h with background := fun _ => rfl }
  | port =>
      simp only [hoption, Except.ok.injEq, Option.some.injEq] at hp
      exact hp ▸ { h with }
  | debug =>
      simp only [hoption, Except.ok.injEq, Option.some.injEq] at hp
      exact hp ▸ { h with level := Or.inr (Or.inl rfl) }
  | verbose =>
      simp only [hoption, Except.ok.injEq, Option.some.injEq] at hp
      exact hp ▸ { h with level := Or.inr (Or.inr rfl) }

theorem Askable.handleAll {t : Tree} {level : Level} {found : List (Found Opt)} :
    ∀ {p p' : Parsing}, Askable t level p → Main.handleAll t found p = .ok (some p') →
      Askable t level p' := by
  induction found with
  | nil =>
      intro p p' h hp
      cases hp
      exact h
  | cons x found ih =>
      intro p p' h hp
      rw [Main.handleAll] at hp
      split at hp
      · next p₁ hx => exact ih (h.handle hx) hp
      · next hstop => exact absurd hp (hstop p')

theorem askable_of_parse {t : Tree} {level : Level} {args : List Str} {p : Parsing}
    (h : parse t level args = .ok (some p)) : Askable t level p := by
  unfold parse at h
  dsimp only at h
  split at h
  · next p' hall =>
      split at h
      · cases h
      · cases h
        exact (askable_default t level).handleAll hall
  · next hstop => exact absurd h (hstop p)

/-! ## Asking for a result -/

def switchOf (option : Opt) : Switch Opt :=
  (switches.flatten.find? fun switch => switch.option = option).getD
    { option := option, long := [] }

/-- `-l VALUE` -/
def valued (option : Opt) (value : Str) : Written Opt :=
  .separate [] (switchOf option) value

/-- `-b` -/
def flag (option : Opt) : Written Opt :=
  .short (switchOf option) []

def writtenLevel : Level → List (Written Opt)
  | .DEBUG => [flag .debug]
  | .INFO => [flag .verbose]
  | .ERROR => []

/-- The options of a result; what is as without options is not written. -/
def writtenOf (level : Level) (p : Parsing) : List (Written Opt) :=
  (if p.results.library = ".".toList then [] else [valued .library p.results.library]) ++
    ((if p.results.target = "iPod".toList then [] else [valued .target p.results.target]) ++
      ((if p.results.background then [flag .background] else []) ++
        ((p.results.rate.toList.map fun rate => valued .rate rate) ++
          ((p.results.port.toList.map fun port => valued .port port) ++
            if p.level = level then [] else writtenLevel p.level))))

/-- Written options that are read, run, and set `p` to `p'`. -/
structure Brings (t : Tree) (written : List (Written Opt)) (p p' : Parsing) : Prop where
  fits : ∀ w ∈ written, w.Fits switches
  runs : ∀ f ∈ written.flatMap Written.found, Runs t f
  settle : settle t p (written.flatMap Written.found) = p'

theorem brings_nil (t : Tree) (p : Parsing) : Brings t [] p p where
  fits := by simp
  runs := by simp
  settle := settle_nil t p

theorem Brings.append {t : Tree} {before after : List (Written Opt)} {p p' p'' : Parsing}
    (h : Brings t before p p') (h' : Brings t after p' p'') : Brings t (before ++ after) p p'' where
  fits := by
    intro w hw
    rcases List.mem_append.1 hw with hw | hw
    · exact h.fits w hw
    · exact h'.fits w hw
  runs := by
    intro f hf
    rw [List.flatMap_append] at hf
    rcases List.mem_append.1 hf with hf | hf
    · exact h.runs f hf
    · exact h'.runs f hf
  settle := by rw [List.flatMap_append, settle_append, h.settle, h'.settle]

theorem Brings.parse {t : Tree} {level : Level} {written : List (Written Opt)} {p : Parsing}
    (h : Brings t written { results := {}, level := level } p) :
    Main.parse t level (written.flatMap Written.arguments) = .ok (some p) := by
  rw [parse_of_runs h.fits h.runs level, h.settle]

/-- Only the help, the version and a directory can end `parse`. -/
theorem runs_of_ne (t : Tree) {option : Opt}
    (h : option ≠ .help ∧ option ≠ .version ∧ option ≠ .library ∧ option ≠ .target)
    (value : Option Str) : Runs t { option := option, value := value } where
  help := h.1
  version := h.2.1
  dir := fun hdir => by
    rcases hdir with hlibrary | htarget
    · exact absurd hlibrary h.2.2.1
    · exact absurd htarget h.2.2.2

/-- One option brings what its block sets. -/
theorem brings_one {t : Tree} {w : Written Opt} {x : Found Opt} (hfits : w.Fits switches)
    (hfound : w.found = [x]) (hruns : Runs t x) (p : Parsing) :
    Brings t [w] p (Main.settle t p [x]) where
  fits := by simpa using hfits
  runs := by simpa [hfound] using hruns
  settle := by simp [hfound]

/-- Every switch but the one of the version has a short name. -/
theorem isShort_switchOf {option : Opt} (h : option ≠ .version) :
    OptionParser.IsShort switches (switchOf option).argument (switchOf option) := by
  cases option with
  | version => exact absurd rfl h
  | _ => simp [OptionParser.IsShort, switchOf, switches]

theorem fits_valued {option : Opt} (h : option ≠ .version)
    (hargument : (switchOf option).argument = true) (value : Str) :
    (valued option value).Fits switches := by
  have hshort := isShort_switchOf h
  rw [hargument] at hshort
  exact ⟨by simp, hshort⟩

theorem fits_flag {option : Opt} (h : option ≠ .version)
    (hargument : (switchOf option).argument = false) : (flag option).Fits switches := by
  have hshort := isShort_switchOf h
  rw [hargument] at hshort
  simpa [flag, Written.Fits] using hshort

theorem found_valued (option : Opt) (value : Str) :
    (valued option value).found = [{ option := option, value := some value }] := by
  cases option <;> rfl

theorem found_flag (option : Opt) : (flag option).found = [{ option := option, value := none }] := by
  cases option <;> rfl

theorem brings_dir {t : Tree} {value : Str} (hreal : realpath t value = .ok value) :
    (∀ p, Brings t [valued .library value] p
        { p with results := { p.results with library := value } }) ∧
      ∀ p, Brings t [valued .target value] p
        { p with results := { p.results with target := value } } := by
  have hok : ∃ loc, t.realpath value = .ok loc := by
    unfold realpath at hreal
    cases hv : t.realpath value with
    | error e => simp [hv] at hreal
    | ok loc => exact ⟨loc, rfl⟩
  have hdir : ∀ default, dirOf t default (some value) = value := by
    intro default
    rcases hok with ⟨loc, hloc⟩
    have hd := realpath_of_ok hloc default
    rw [hreal] at hd
    exact (Except.ok.inj hd).symm
  constructor
  · intro p
    have hone := brings_one (fits_valued (by decide) rfl value) (found_valued .library value)
      ⟨by simp, by simp, fun _ => hok⟩ p
    simpa [settle, lastOf, levelOf, hdir] using hone
  · intro p
    have hone := brings_one (fits_valued (by decide) rfl value) (found_valued .target value)
      ⟨by simp, by simp, fun _ => hok⟩ p
    simpa [settle, lastOf, levelOf, hdir] using hone

theorem brings_background (t : Tree) (p : Parsing) :
    Brings t [flag .background] p { p with results := { p.results with background := true } } := by
  have hone := brings_one (fits_flag (by decide) rfl) (found_flag .background)
    (runs_of_ne t (by decide) _) p
  simpa [settle, lastOf, levelOf] using hone

theorem brings_rate (t : Tree) (p : Parsing) (rate : Str) :
    Brings t [valued .rate rate] p
      { p with results := { p.results with background := true, rate := some rate } } := by
  have hone := brings_one (fits_valued (by decide) rfl rate) (found_valued .rate rate)
    (runs_of_ne t (by decide) _) p
  simpa [settle, lastOf, levelOf] using hone

theorem brings_port (t : Tree) (p : Parsing) (port : Str) :
    Brings t [valued .port port] p { p with results := { p.results with port := some port } } := by
  have hone := brings_one (fits_valued (by decide) rfl port) (found_valued .port port)
    (runs_of_ne t (by decide) _) p
  simpa [settle, lastOf, levelOf] using hone

theorem brings_level (t : Tree) (p : Parsing) {level : Level} (h : level = .DEBUG ∨ level = .INFO) :
    Brings t (writtenLevel level) p { p with level := level } := by
  rcases h with rfl | rfl
  · have hone := brings_one (fits_flag (by decide) rfl) (found_flag .debug)
      (runs_of_ne t (by decide) _) p
    simpa [settle, lastOf, levelOf, writtenLevel] using hone
  · have hone := brings_one (fits_flag (by decide) rfl) (found_flag .verbose)
      (runs_of_ne t (by decide) _) p
    simpa [settle, lastOf, levelOf, writtenLevel] using hone

/-- A part of a result that is written only if it is not what was there. -/
theorem brings_unless {t : Tree} {c : Prop} [Decidable c] {written : List (Written Opt)}
    {p p' : Parsing} (hsame : c → p' = p) (h : ¬ c → Brings t written p p') :
    Brings t (if c then [] else written) p p' := by
  by_cases hc : c
  · rw [if_pos hc, hsame hc]
    exact brings_nil t p
  · rw [if_neg hc]
    exact h hc

/-- What is written for a result brings it. -/
theorem brings_writtenOf {t : Tree} {level : Level} {p : Parsing} (h : Askable t level p) :
    Brings t (writtenOf level p) { results := {}, level := level } p := by
  rcases p with ⟨⟨target, library, background, rate, port⟩, level'⟩
  have hlibrary : Brings t (if library = ".".toList then [] else [valued .library library])
      { results := {}, level := level } { results := { library := library }, level := level } :=
    brings_unless (fun hc => by rw [hc]) fun hc => (brings_dir (h.library.resolve_left hc)).1 _
  have htarget : Brings t (if target = "iPod".toList then [] else [valued .target target])
      { results := { library := library }, level := level }
      { results := { library := library, target := target }, level := level } :=
    brings_unless (fun hc => by rw [hc]) fun hc => (brings_dir (h.target.resolve_left hc)).2 _
  have hbackground : Brings t (if background then [flag .background] else [])
      { results := { library := library, target := target }, level := level }
      { results := { library := library, target := target, background := background },
        level := level } := by
    cases background with
    | false => exact brings_nil t _
    | true => exact brings_background t _
  have hrate : Brings t (rate.toList.map fun rate => valued .rate rate)
      { results := { library := library, target := target, background := background },
        level := level }
      { results :=
          { library := library, target := target, background := background, rate := rate },
        level := level } := by
    cases rate with
    | none => exact brings_nil t _
    | some rate =>
        -- a rate asks for the background mode by itself
        have hmode : background = true := h.background rfl
        subst hmode
        exact brings_rate t _ rate
  have hport : Brings t (port.toList.map fun port => valued .port port)
      { results :=
          { library := library, target := target, background := background, rate := rate },
        level := level }
      { results :=
          { library := library, target := target, background := background, rate := rate,
            port := port },
        level := level } := by
    cases port with
    | none => exact brings_nil t _
    | some port => exact brings_port t _ port
  have hlevel : Brings t (if level' = level then [] else writtenLevel level')
      { results :=
          { library := library, target := target, background := background, rate := rate,
            port := port },
        level := level }
      { results :=
          { library := library, target := target, background := background, rate := rate,
            port := port },
        level := level' } :=
    brings_unless (fun hc => by rw [hc]) fun hc => brings_level t _ (h.level.resolve_left hc)
  exact hlibrary.append (htarget.append (hbackground.append (hrate.append (hport.append hlevel))))

/-- `parse` gives the results that can be asked for, and no others; the options of a result give it. -/
theorem parse_some_iff (t : Tree) (level : Level) (p : Parsing) :
    ((∃ args, parse t level args = .ok (some p)) ↔ Askable t level p) ∧
      (parse t level ((writtenOf level p).flatMap Written.arguments) = .ok (some p) ↔
        Askable t level p) := by
  have hwritten : Askable t level p →
      parse t level ((writtenOf level p).flatMap Written.arguments) = .ok (some p) := fun h =>
    (brings_writtenOf h).parse
  refine ⟨⟨?_, fun h => ⟨_, hwritten h⟩⟩, askable_of_parse, hwritten⟩
  rintro ⟨args, h⟩
  exact askable_of_parse h

end Main

end Yikes
