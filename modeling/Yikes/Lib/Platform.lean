import Yikes.Lib.Utility
import Yikes.Ruby.Files

/-!
# Platform — directories of the user, external commands, the host name (`lib/platform.rb`)
-/

namespace Yikes

open Ruby

inductive Os
  | linux
  | osx
  | solaris
  | bsd
  | windows
  deriving DecidableEq, Repr

inductive Runtime
  | mri
  | rubinius
  | jruby
  deriving DecidableEq, Repr

/-- How a command ends that `Kernel#system` runs. -/
inductive CommandEnd
  | exited (status : Nat)
  | killed (signal : Nat)
  | notStarted
  deriving DecidableEq, Repr

/-- What the program finds out about its surroundings; `os` is `none` for a system it does not know. -/
structure Platform where
  os : Option Os
  runtime : Runtime
  home : Option Str
  deriving DecidableEq, Repr

namespace Platform

variable (platform : Platform)

def platformHasFork : Bool :=
  platform.os != some .windows && platform.runtime ∈ [.mri, .rubinius]

def homeDir : Str :=
  if platform.os = some .windows then "C:\\temp".toList
  else platform.home.getD ".".toList

/-! ## Directories -/

/-- The path `settings_dir` returns. -/
def settingsPath : Str :=
  if platform.os = some .windows then "DONTKNOW".toList
  else File.join [platform.homeDir, ".yikes".toList]

def settingsDir (t : Tree) : Except (Errno × Tree) (Str × Tree) :=
  if platform.os = some .windows then .ok (platform.settingsPath, t)
  else (t.mkdir_p platform.settingsPath).map fun t' => (platform.settingsPath, t')

/-- The path `screenshot_dir` returns. -/
def previewPath : Str :=
  File.join [platform.settingsPath, "preview".toList]

def screenshotDir (t : Tree) : Except (Errno × Tree) (Str × Tree) :=
  match platform.settingsDir t with
  | .error e => .error e
  | .ok (_, t') => (t'.mkdir_p platform.previewPath).map fun t'' => (platform.previewPath, t'')

theorem screenshotDir_path {t t' : Tree} {dir : Str}
    (h : platform.screenshotDir t = .ok (dir, t')) : dir = platform.previewPath := by
  unfold screenshotDir at h
  split at h
  · cases h
  · next t₁ hsettings =>
      cases hmake : t₁.mkdir_p platform.previewPath with
      | error e => simp [hmake, Except.map] at h
      | ok t₂ =>
          have hpath : platform.previewPath = dir ∧ t₂ = t' := by simpa [hmake, Except.map] using h
          exact hpath.1.symm

/-- The preview directory can be made, or is there. -/
def Ready (t : Tree) : Prop :=
  ∃ t', platform.screenshotDir t = .ok (platform.previewPath, t')

instance (t : Tree) : Decidable (platform.Ready t) :=
  decidable_of_iff ((platform.screenshotDir t).isOk = true) (by
    constructor
    · intro h
      cases hdir : platform.screenshotDir t with
      | error e => simp [hdir, Except.isOk, Except.toBool] at h
      | ok r =>
          have hpath := platform.screenshotDir_path hdir
          exact ⟨r.2, by rw [hdir, ← hpath]⟩
    · rintro ⟨t', hdir⟩
      simp [hdir, Except.isOk, Except.toBool])

/-- Once it was made, the preview directory is there. -/
theorem screenshotDir_again {t t' : Tree} {dir : Str}
    (h : platform.screenshotDir t = .ok (dir, t')) : platform.Ready t' := by
  refine ⟨t', ?_⟩
  unfold screenshotDir at h ⊢
  cases hsettings : platform.settingsDir t with
  | error e => simp [hsettings] at h
  | ok r =>
      rcases r with ⟨settings, t₁⟩
      cases hmake : t₁.mkdir_p platform.previewPath with
      | error e => simp [hsettings, hmake, Except.map] at h
      | ok t₂ =>
          have ht : t₂ = t' := by
            have hpair : platform.previewPath = dir ∧ t₂ = t' := by
              simpa [hsettings, hmake, Except.map] using h
            exact hpair.2
          subst ht
          have hpreview := Tree.mkdir_p_again hmake (Tree.Keeps.refl _)
          have hagain : platform.settingsDir t₂ = .ok (platform.settingsPath, t₂) := by
            -- on windows nothing is made; elsewhere the second `mkdir_p` keeps what the first made
            unfold settingsDir at hsettings ⊢
            split
            · rfl
            · next hos =>
                rw [if_neg hos] at hsettings
                cases hfirst : t.mkdir_p platform.settingsPath with
                | error e => simp [hfirst, Except.map] at hsettings
                | ok t₀ =>
                    have ht₀ : t₀ = t₁ := by
                      have hpair : platform.settingsPath = settings ∧ t₀ = t₁ := by
                        simpa [hfirst, Except.map] using hsettings
                      exact hpair.2
                    subst ht₀
                    have hkept := Tree.mkdir_p_again hfirst (Tree.mkdir_p_spec hmake).1
                    simp [hkept, Except.map]
          simp [hagain, hpreview, Except.map]

/-! ## External commands -/

variable {σ : Type}

/-- The child runs the command and leaves by `exit!`; the parent waits for it, and logs what the
child, not the command, exited with. -/
def runExternalCommandFork (system : Str → σ → CommandEnd × σ) (cmd : Str) (s : σ) : σ :=
  (system cmd s).2

def runExternalCommand (system : Str → σ → CommandEnd × σ) (cmd : Str) (s : σ) : Bool × σ :=
  if platform.platformHasFork then (true, runExternalCommandFork system cmd s)
  else (true, (system cmd s).2)

theorem runExternalCommand_eq (system : Str → σ → CommandEnd × σ) (cmd : Str) (s : σ) :
    platform.runExternalCommand system cmd s = (true, (system cmd s).2) := by
  simp [runExternalCommand, runExternalCommandFork]

/-! ## The host name -/

/-- `/^[\.]*\..*$/` -/
def domain : Regex :=
  .seq .lineStart
    (.seq (.many fun c => c == '.')
      (.seq (.one fun c => c == '.') (.seq (.many fun c => c != '\n') .lineEnd)))

/-- `output` is what the command `hostname` prints. -/
def hostname (output : Str) : Str :=
  if platform.os = some .windows then "DONTKNOW".toList
  else superChomp (Regex.gsubStr domain "\\1".toList output)

end Platform

end Yikes
