import Yikes.Ruby.Glob
import Yikes.Ruby.Replacement

/-!
# Utility — texts and file lists (`lib/utility.rb`)
-/

namespace Yikes

open Ruby

/-! ## Texts -/

/-- Patterns and replacement strings, in the order in which they are applied. -/
def ToEscape : List (Str × Str) :=
  [(['\\'], ['\\', '\\']),
   (['"'], ['"']),
   (['\''], ['\'']),
   ([','], ['\\', ',']),
   (['\''], ['\\', '\'']),
   (['-'], ['\\', '-']),
   (['('], ['\\', '(']),
   ([')'], ['\\', ')']),
   (['&'], ['\\', '&']),
   ([' '], ['\\', ' '])]

def escapedPath (path : Str) : Str :=
  ToEscape.foldl (fun ret x => Regex.gsubStr (Regex.literal x.1) x.2 ret) path

/-- The characters of `\w`. -/
def isWord (c : Char) : Bool :=
  c.isAlphanum || c == '_'

/-- `/\W*$/` -/
def lineTail : Regex :=
  .seq (.many fun c => !isWord c) .lineEnd

/-- `/^\W*(\w.*)$/` -/
def lineBody : Regex :=
  .seq .lineStart
    (.seq (.many fun c => !isWord c)
      (.seq (.group (.seq (.one isWord) (.many fun c => c != '\n'))) .lineEnd))

def superChomp (s : Str) : Str :=
  (Regex.gsubStr! lineBody "\\1".toList (Regex.gsubStr lineTail [] s)).getD []

/-! ## Files -/

/-- Something readable that is neither a directory nor a device. -/
def filelike (t : Tree) (path : Str) : Bool :=
  match (t.stat path).bind t.node? with
  | some (.file readable) => readable
  | _ => false

theorem filelike_iff {t : Tree} {path : Str} :
    filelike t path = true ↔ ∃ loc, t.stat path = some loc ∧ t.node? loc = some (.file true) := by
  constructor
  · intro h
    unfold filelike at h
    split at h
    · next readable hnode =>
        rcases Option.bind_eq_some_iff.1 hnode with ⟨loc, hstat, hfile⟩
        exact ⟨loc, hstat, by rw [hfile, h]⟩
    · cases h
  · rintro ⟨loc, hstat, hfile⟩
    simp [filelike, hstat, hfile]

def getFileList (t : Tree) (path : Str) : List Str :=
  (Dir.glob t (File.join [path, "**".toList, "*".toList])).filter (filelike t)

end Yikes
