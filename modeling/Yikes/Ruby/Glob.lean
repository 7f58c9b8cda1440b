import Yikes.Ruby.Tree

/-!
# Glob — `Dir.glob`

The pattern language of `Dir.glob` on a tree:

* `{a,b}` stands for several patterns (`expandBraces`);
* a pattern is split at its separators, outside of brackets (`segments`), and `**/` is any number of
  directories, none of them reached through a link and none with a name that starts with a dot;
* in a name, `*`, `?` and `[set]` are wildcards and a backslash takes the next character as it is
  (`fnmatch`); a dot that starts a name has to be matched by a dot;
* a name without wildcards is looked up as it stands.

The order of the results is the order in which directories list their entries.
-/

namespace Ruby
namespace Glob

/-! ## Names -/

/-- The members of a bracket set, up to its closing bracket, and the pattern behind it. -/
def bracketItems : Str → Option (List (Char × Char) × Str)
  | [] => none
  | ']' :: rest => some ([], rest)
  | '\\' :: c :: rest => (bracketItems rest).map fun r => ((c, c) :: r.1, r.2)
  | a :: '-' :: ']' :: rest => some ([(a, a), ('-', '-')], rest)
  | a :: '-' :: b :: rest => (bracketItems rest).map fun r => ((a, b) :: r.1, r.2)
  | a :: rest => (bracketItems rest).map fun r => ((a, a) :: r.1, r.2)

/-- `[set]` without its opening bracket, against one character: whether it is in the set. -/
def bracket (pat : Str) (c : Char) : Option (Bool × Str) :=
  match pat with
  | '^' :: rest => (bracketItems rest).map fun r => (!(r.1.any fun i => i.1 ≤ c && c ≤ i.2), r.2)
  | '!' :: rest => (bracketItems rest).map fun r => (!(r.1.any fun i => i.1 ≤ c && c ≤ i.2), r.2)
  | rest => (bracketItems rest).map fun r => (r.1.any fun i => i.1 ≤ c && c ≤ i.2, r.2)

/-- `fnmatch(3)` of one name; `fuel` bounds the pattern characters looked at. -/
def fnmatchFrom : Nat → Str → Str → Bool
  | 0, _, _ => false
  | _ + 1, [], name => name.isEmpty
  | fuel + 1, '*' :: pat, name => name.tails.any fun rest => fnmatchFrom fuel pat rest
  | _ + 1, _ :: _, [] => false
  | fuel + 1, '?' :: pat, _ :: name => fnmatchFrom fuel pat name
  | fuel + 1, '[' :: pat, c :: name =>
      match bracket pat c with
      | some (true, rest) => fnmatchFrom fuel rest name
      | _ => false
  | fuel + 1, '\\' :: p :: pat, c :: name => p == c && fnmatchFrom fuel pat name
  | fuel + 1, p :: pat, c :: name => p == c && fnmatchFrom fuel pat name

def fnmatch (pat name : Str) : Bool :=
  if name.head? = some '.' ∧ pat.head? ≠ some '.' ∧ ¬ ['\\', '.'] <+: pat then false
  else fnmatchFrom (pat.length + 1) pat name

/-- Whether a name of a pattern has wildcards. -/
def hasMagic : Str → Bool
  | [] => false
  | '\\' :: _ :: pat => hasMagic pat
  | c :: pat => c == '*' || c == '?' || c == '[' || hasMagic pat

/-- A name without wildcards, its backslashes taken away. -/
def unescape : Str → Str
  | [] => []
  | '\\' :: c :: pat => c :: unescape pat
  | c :: pat => c :: unescape pat

/-! ## Patterns -/

inductive Segment
  /-- `**/` -/
  | recursive
  | name (pat : Str)
  deriving DecidableEq, Repr

/-- Splits at the separators that are not inside a bracket. -/
def splitPattern : Bool → Str → List Str
  | _, [] => [[]]
  | inBracket, '\\' :: c :: pat => (splitPattern inBracket pat).modifyHead fun s => '\\' :: c :: s
  | _, '[' :: pat => (splitPattern true pat).modifyHead fun s => '[' :: s
  | _, ']' :: pat => (splitPattern false pat).modifyHead fun s => ']' :: s
  | false, '/' :: pat => [] :: splitPattern false pat
  | inBracket, c :: pat => (splitPattern inBracket pat).modifyHead fun s => c :: s

/-- Repeated `**/` count once; `**` at the end of a pattern is an ordinary name. -/
def classify : List Str → List Segment
  | [] => []
  | [last] => [.name last]
  | s :: rest =>
      if s = ['*', '*'] then
        match classify rest with
        | .recursive :: segs => .recursive :: segs
        | segs => .recursive :: segs
      else .name s :: classify rest

/-- The root of a pattern and its segments. -/
def segments (pat : Str) : Str × List Segment :=
  match pat with
  | '/' :: rest => (['/'], classify (splitPattern false rest))
  | _ => ([], classify (splitPattern false pat))

/-- The alternatives of a brace, from behind its opening one: each alternative, and what follows. -/
def alternatives : Nat → Str → Option (List Str × Str)
  | _, [] => none
  | 0, '}' :: rest => some ([[]], rest)
  | 0, ',' :: rest => (alternatives 0 rest).map fun r => ([] :: r.1, r.2)
  | depth, '\\' :: c :: rest =>
      (alternatives depth rest).map fun r => (r.1.modifyHead fun s => '\\' :: c :: s, r.2)
  | depth, '{' :: rest =>
      (alternatives (depth + 1) rest).map fun r => (r.1.modifyHead fun s => '{' :: s, r.2)
  | depth + 1, '}' :: rest =>
      (alternatives depth rest).map fun r => (r.1.modifyHead fun s => '}' :: s, r.2)
  | depth, c :: rest => (alternatives depth rest).map fun r => (r.1.modifyHead fun s => c :: s, r.2)

/-- The text in front of the first opening brace, and the text behind it. -/
def splitBrace : Str → Option (Str × Str)
  | [] => none
  | '{' :: rest => some ([], rest)
  | '\\' :: c :: rest => (splitBrace rest).map fun r => ('\\' :: c :: r.1, r.2)
  | c :: rest => (splitBrace rest).map fun r => (c :: r.1, r.2)

/-- All patterns a pattern with braces stands for; a brace that is not closed is taken as it is. -/
def expandBraces : Nat → Str → List Str
  | 0, pat => [pat]
  | fuel + 1, pat =>
      match splitBrace pat with
      | none => [pat]
      | some (front, rest) =>
          match alternatives 0 rest with
          | none => [pat]
          | some (alts, back) => alts.flatMap fun alt => expandBraces fuel (front ++ alt ++ back)

/-! ## Matching against a tree -/

/-- The entries of the directory at a place. -/
def entries (t : Tree) (dir : Loc) : List Str :=
  t.nodes.keys.filterMap fun loc =>
    if loc.dropLast = dir then loc.getLast? else none

/-- The names that lead from `dir` to the directories below it that `**/` reaches. -/
def subdirs (t : Tree) (dir : Loc) : List (List Str) :=
  t.nodes.keys.filterMap fun loc =>
    if dir <+: loc ∧ dir ≠ loc ∧ t.isDir loc ∧
        ∀ name ∈ loc.drop dir.length, name.head? ≠ some '.' then
      some (loc.drop dir.length)
    else none

/-- The path texts built so far, with whether a separator is due in front of the next name. -/
abbrev Base := Str × Bool

def Base.add (base : Base) (name : Str) : Base :=
  (if base.2 then base.1 ++ '/' :: name else base.1 ++ name, true)

/-- The place of the directory a base stands for; the empty base is the working directory. -/
def Base.dir? (t : Tree) (base : Base) : Option Loc :=
  ((if base.1 = [] then some t.cwd else t.stat base.1).filter fun loc => t.isDir loc)

/-- `lstat(2)`: the path names something, be it a link that leads nowhere. -/
def lexist? (t : Tree) (path : Str) : Bool :=
  (t.stat path).isSome ||
    match t.stat (File.dirname path) with
    | none => false
    | some dir => (t.node? (dir ++ [File.basename path])).isSome

def expand (t : Tree) : List Segment → Base → List Str
  | [], base => if lexist? t base.1 then [base.1] else []
  | .recursive :: segs, base =>
      -- `**/` stands for no directory as well
      match base.dir? t with
      | none => []
      | some dir =>
          expand t segs base ++
            (subdirs t dir).flatMap fun rel => expand t segs (rel.foldl Base.add base)
  | .name pat :: segs, base =>
      if hasMagic pat then
        match base.dir? t with
        | none => []
        | some dir =>
            ((entries t dir).filter (fnmatch pat)).flatMap fun name => expand t segs (base.add name)
      -- not listed but looked up, at the end of the pattern
      else expand t segs (base.add (unescape pat))

end Glob

/-- `Dir.glob`. -/
def Dir.glob (t : Tree) (pat : Str) : List Str :=
  (Glob.expandBraces pat.length pat).flatMap fun p =>
    Glob.expand t (Glob.segments p).2 ((Glob.segments p).1, false)

end Ruby
