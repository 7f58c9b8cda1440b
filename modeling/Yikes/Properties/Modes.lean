import Yikes.Lib.Main

/-!
# Modes — which directories the two modes use

A directory that is given as an option is replaced by its real path, which names it wherever it is
read; the defaults are left as they are.  So the modes agree, and the key of the engine keeps its
meaning, exactly if both directories are given (`modes_agree_iff`).
-/

namespace Yikes

open Ruby

namespace Main

/-- An option is among those of an argument list that are read. -/
def given (option : Opt) (args : List Str) : Bool :=
  (OptionParser.read switches args).1.any fun found => found.option = option

/-- Every pass that the background mode makes for the engine of these options uses the directories that
the foreground mode uses, and so would a pass for its key wherever the process runs later. -/
structure Agrees {κ : Type} (cwd : Loc) (p : Parsing) (engines : Registry κ) (transcoder : κ) :
    Prop where
  passes : ∀ rounds, ∀ encoding ∈ background cwd p engines transcoder rounds,
    EngineManager.engineKey encoding.library encoding.target =
        EngineManager.engineKey p.results.library p.results.target →
      ∀ encoding' ∈ foreground cwd p.results, encoding.dirs = encoding'.dirs
  key : ∀ later : Loc, (∀ name ∈ later, ValidName name) →
    ∀ encoding' ∈ foreground cwd p.results,
    Encoding.dirs
        { cwd := later
          library := (EngineManager.engineKey p.results.library p.results.target).1
          target := (EngineManager.engineKey p.results.library p.results.target).2 } =
      encoding'.dirs

/-- A path that names a place wherever it is read. -/
def Names (path : Str) (loc : Loc) : Prop :=
  ∀ cwd : Loc, Loc.absolute cwd path = loc

/-! ## What `parse` makes of the directories -/

theorem names_realpath {t : Tree} {x path : Str} (h : realpath t x = .ok path) :
    ∃ loc, Names path loc := by
  unfold realpath at h
  cases hreal : t.realpath x with
  | error e => simp [hreal] at h
  | ok loc =>
      have hpath : Loc.text loc = path := by simpa [hreal] using h
      exact ⟨loc, fun cwd => hpath ▸ Loc.absolute_text (Tree.validName_realpath hreal) cwd⟩

/-- The block of an option sets a directory to a real path, or leaves it. -/
def Sets (dir : Results → Str) (option : Opt) : Prop :=
  ∀ (t : Tree) (p p' : Parsing) (found : OptionParser.Found Opt),
    handle t p found = .ok (some p') →
      (found.option = option ∧ ∃ loc, Names (dir p'.results) loc) ∨
        (found.option ≠ option ∧ dir p'.results = dir p.results)

/-- What a block that does not return from `parse` does to the results. -/
theorem handle_cases {t : Tree} {p p' : Parsing} {found : OptionParser.Found Opt}
    (h : handle t p found = .ok (some p')) :
    (found.option = .library ∧ ∃ dir loc, Names dir loc ∧
        p'.results = { p.results with library := dir }) ∨
      (found.option = .target ∧ ∃ dir loc, Names dir loc ∧
        p'.results = { p.results with target := dir }) ∨
      (found.option ≠ .library ∧ found.option ≠ .target ∧
        p'.results.library = p.results.library ∧ p'.results.target = p.results.target) := by
  unfold handle at h
  cases hoption : found.option with
  | library =>
      left
      cases hreal : realpath t (found.value.getD []) with
      | error e => simp [hoption, hreal, Except.map] at h
      | ok dir =>
          have hp : { p with results := { p.results with library := dir } } = p' := by
            simpa [hoption, hreal, Except.map] using h
          rcases names_realpath hreal with ⟨loc, hloc⟩
          exact ⟨rfl, dir, loc, hloc, hp ▸ rfl⟩
  | target =>
      right
      left
      cases hreal : realpath t (found.value.getD []) with
      | error e => simp [hoption, hreal, Except.map] at h
      | ok dir =>
          have hp : { p with results := { p.results with target := dir } } = p' := by
            simpa [hoption, hreal, Except.map] using h
          rcases names_realpath hreal with ⟨loc, hloc⟩
          exact ⟨rfl, dir, loc, hloc, hp ▸ rfl⟩
  | help => simp [hoption] at h
  | version => simp [hoption] at h
  | _ =>
      -- every other option leaves the directories alone
      right
      right
      simp only [hoption, Except.ok.injEq, Option.some.injEq] at h
      exact ⟨by simp, by simp, h ▸ rfl, h ▸ rfl⟩

theorem sets_library : Sets Results.library .library := by
  intro t p p' found h
  rcases handle_cases h with ⟨hopt, dir, loc, hloc, hp⟩ | ⟨hopt, dir, loc, hloc, hp⟩ |
    ⟨hlib, -, hsame, -⟩
  · exact Or.inl ⟨hopt, loc, by rw [hp]; exact hloc⟩
  · exact Or.inr ⟨by simp [hopt], by rw [hp]⟩
  · exact Or.inr ⟨hlib, hsame⟩

theorem sets_target : Sets Results.target .target := by
  intro t p p' found h
  rcases handle_cases h with ⟨hopt, dir, loc, hloc, hp⟩ | ⟨hopt, dir, loc, hloc, hp⟩ |
    ⟨-, htarget, -, hsame⟩
  · exact Or.inr ⟨by simp [hopt], by rw [hp]⟩
  · exact Or.inl ⟨hopt, loc, by rw [hp]; exact hloc⟩
  · exact Or.inr ⟨htarget, hsame⟩

theorem dir_of_handleAll {dir : Results → Str} {option : Opt} (hsets : Sets dir option) {t : Tree}
    {found : List (OptionParser.Found Opt)} :
    ∀ {p p' : Parsing}, handleAll t found p = .ok (some p') →
      if found.any fun x => x.option = option then ∃ loc, Names (dir p'.results) loc
      else dir p'.results = dir p.results := by
  induction found with
  | nil =>
      intro p p' h
      cases h
      simp
  | cons x found ih =>
      intro p p' h
      unfold handleAll at h
      split at h
      · next p₁ hx =>
          have hrest := ih h
          by_cases hlater : found.any (fun x => x.option = option) = true
          · simpa [hlater] using hrest
          · -- the last block that sets the directory is this one, or none does
            simp only [hlater] at hrest
            have hrest' : dir p'.results = dir p₁.results := by simpa using hrest
            rcases hsets t p p₁ x hx with ⟨heq, hnames⟩ | ⟨hne, hsame⟩
            · simpa [heq, hrest'] using hnames
            · have hany : ((x :: found).any fun x => x.option = option) = false := by
                simpa [hne] using hlater
              simp [hany, hrest', hsame]
      · next hstop =>
          exact absurd h (hstop p')

/-- A directory that is given is a real path, and one that is not is the default. -/
theorem dir_of_parse {dir : Results → Str} {option : Opt} (hsets : Sets dir option) {t : Tree}
    {level : Level} {args : List Str} {p : Parsing} (h : parse t level args = .ok (some p)) :
    if given option args then ∃ loc, Names (dir p.results) loc
    else dir p.results = dir {} := by
  unfold parse at h
  dsimp only at h
  split at h
  · next p' hall =>
      split at h
      · cases h
      · cases h
        exact dir_of_handleAll hsets hall
  · next hstop => exact absurd h (hstop p)

/-! ## The two modes -/

theorem absolute_default (cwd : Loc) : Loc.absolute cwd ['.'] = cwd := by
  have hnames : File.names ['.'] = [['.']] := by decide
  simp [Loc.absolute, hnames, Tree.origin, File.isAbsolute]

theorem absolute_iPod (cwd : Loc) :
    Loc.absolute cwd ['i', 'P', 'o', 'd'] = cwd ++ [['i', 'P', 'o', 'd']] := by
  have hnames : File.names ['i', 'P', 'o', 'd'] = [['i', 'P', 'o', 'd']] := by decide
  simp [Loc.absolute, hnames, Tree.origin, File.isAbsolute]

/-- A default is read anew wherever the process runs. -/
theorem given_of_key {option : Opt} {dir : Results → Str} {args : List Str} {p : Parsing}
    {cwd later : Loc}
    (hdir : if given option args then ∃ loc, Names (dir p.results) loc
      else dir p.results = dir {})
    (hdefault : Loc.absolute later (dir {}) ≠ Loc.absolute cwd (dir {}))
    (hkey : Loc.absolute later (dir p.results) = Loc.absolute cwd (dir p.results)) :
    given option args = true := by
  cases hgiven : given option args with
  | true => rfl
  | false =>
      have hsame : dir p.results = dir {} := by simpa [hgiven] using hdir
      rw [hsame] at hkey
      exact absurd hkey hdefault

/-- For every argument list that `parse` accepts, the modes agree and the key keeps its meaning if and
only if both directories are given. -/
theorem modes_agree_iff {κ : Type} {t : Tree} {level : Level} {args : List Str} {p : Parsing}
    (h : parse t level args = .ok (some p)) (engines : Registry κ) (transcoder : κ) :
    Agrees t.cwd p engines transcoder ↔ given .library args ∧ given .target args := by
  have hlibrary := dir_of_parse sets_library h
  have htarget := dir_of_parse sets_target h
  constructor
  · intro hagrees
    -- a later run that starts one directory further down
    have hvalid : ∀ name ∈ t.cwd ++ ["later".toList], ValidName name := by
      intro name hname
      rcases List.mem_append.1 hname with hcwd | hlater
      · exact t.validName_cwd name hcwd
      · rw [List.mem_singleton.1 hlater]
        decide
    have hkey := hagrees.key _ hvalid _ (List.mem_singleton_self _)
    constructor
    · apply given_of_key hlibrary _ (congrArg Prod.fst hkey)
      simp [absolute_default]
    · apply given_of_key htarget _ (congrArg Prod.snd hkey)
      simp [absolute_iPod]
  · rintro ⟨hgivenLibrary, hgivenTarget⟩
    rw [if_pos hgivenLibrary] at hlibrary
    rw [if_pos hgivenTarget] at htarget
    rcases hlibrary with ⟨library, hlib⟩
    rcases htarget with ⟨target, htgt⟩
    have hdirs : ∀ encoding : Encoding, encoding.library = p.results.library →
        encoding.target = p.results.target → encoding.dirs = (library, target) := by
      intro encoding hl ht
      simp [Encoding.dirs, hl, ht, hlib encoding.cwd, htgt encoding.cwd]
    constructor
    · intro rounds encoding hmem hkey encoding' hmem'
      rw [hdirs encoding (congrArg Prod.fst hkey) (congrArg Prod.snd hkey),
        List.mem_singleton.1 hmem', hdirs _ rfl rfl]
    · intro later _ encoding' hmem'
      rw [List.mem_singleton.1 hmem', hdirs _ rfl rfl, hdirs _ rfl rfl]

end Main

namespace Sample

open Main

/-- A library `v` and a target `t`. -/
def dirsTree : Tree :=
  ((Tree.empty 8).put [] "v".toList (.dir true)).put [] "t".toList (.dir true)

def givenArgs : List Str :=
  ["-bl".toList, "v".toList, "--targ=t".toList]

def givenParsing : Parsing where
  results := { target := "/t".toList, library := "/v".toList, background := true }
  level := .ERROR

theorem parse_given : parse dirsTree .ERROR givenArgs = .ok (some givenParsing) := by
  decide +kernel

def defaultParsing : Parsing where
  results := { background := true }
  level := .ERROR

theorem parse_default : parse dirsTree .ERROR ["-b".toList] = .ok (some defaultParsing) := by
  decide +kernel

end Sample

theorem modes_agree_iff_sample :
    Main.Agrees [] Sample.givenParsing (Registry.empty : Registry Unit) () := by
  have hiff := Main.modes_agree_iff Sample.parse_given (Registry.empty : Registry Unit) ()
  exact hiff.2 (by decide +kernel)

/-- With `-b` alone, the background mode scans `/tmp` and writes to `/tmp/iPod`, wherever it was
started; the foreground mode uses the directory it was started in. -/
theorem defaults_move_with_daemon :
    Main.parse Sample.dirsTree .ERROR ["-b".toList] = .ok (some Sample.defaultParsing) ∧
      (Main.background [] Sample.defaultParsing (Registry.empty : Registry Unit) () 1).map
        Encoding.dirs = [(["tmp".toList], ["tmp".toList, "iPod".toList])] ∧
      (Main.foreground [] Sample.defaultParsing.results).map Encoding.dirs =
        [([], ["iPod".toList])] ∧
      ¬ Main.Agrees [] Sample.defaultParsing (Registry.empty : Registry Unit) () := by
  refine ⟨Sample.parse_default, by decide +kernel, by decide +kernel, ?_⟩
  intro hagrees
  have hkey := hagrees.key ["later".toList] (by decide) _ (List.mem_singleton_self _)
  exact absurd (congrArg Prod.fst hkey) (by decide +kernel)

end Yikes
