import Yikes.Ruby.Text

/-!
# Path — Ruby's `File` and `Pathname` functions on path strings

These functions look at the text of a path only, never at a file tree:

* `File.join`, with its treatment of separators that are already there;
* `File.dirname`, `File.basename` and `File.extname`;
* `File.components`, the names a path is resolved by.

`join2_eq` is the fact most proofs use: joining is putting the second part, with one separator in
front where it has none, behind the first part without its trailing separators.
-/

namespace Ruby
namespace File

/-- `path` without its trailing separators. -/
def chompSep (path : Str) : Str :=
  path.rdropWhile (· == '/')

/-! ## Joining -/

/-- `File.join` of two parts. -/
def join2 (a b : Str) : Str :=
  if b.head? = some '/' then chompSep a ++ b
  else if a.getLast? = some '/' then a ++ b
  else a ++ '/' :: b

/-- `File.join`. -/
def join : List Str → Str
  | [] => []
  | a :: rest => rest.foldl join2 a

@[simp] theorem join_pair (a b : Str) : join [a, b] = join2 a b := rfl

/-- The separators `join2` finds or puts between `a` and a part without a leading one. -/
def separators (a : Str) : Str :=
  if a.getLast? = some '/' then a.rtakeWhile (· == '/') else ['/']

/-- The text that stands behind `chompSep a` in `join2 a b`. -/
def landing (a b : Str) : Str :=
  if b.head? = some '/' then b else separators a ++ b

theorem chompSep_append_rtakeWhile (a : Str) : chompSep a ++ a.rtakeWhile (· == '/') = a :=
  List.rdropWhile_append_rtakeWhile

theorem chompSep_of_getLast?_ne {a : Str} (h : a.getLast? ≠ some '/') : chompSep a = a := by
  refine List.rdropWhile_eq_self_iff.2 ?_
  intro hne hlast
  apply h
  rw [List.getLast?_eq_some_getLast hne]
  simpa using hlast

theorem join2_eq (a b : Str) : join2 a b = chompSep a ++ landing a b := by
  by_cases hb : b.head? = some '/'
  · simp [join2, landing, hb]
  · by_cases ha : a.getLast? = some '/'
    · have hparts : chompSep a ++ a.rtakeWhile (· == '/') = a := chompSep_append_rtakeWhile a
      simp only [join2, landing, separators, hb, ha, if_true, if_false]
      rw [← List.append_assoc, hparts]
    · simp [join2, landing, separators, hb, ha, chompSep_of_getLast?_ne ha]

theorem join2_right_inj {a b b' : Str} : join2 a b = join2 a b' ↔ landing a b = landing a b' := by
  rw [join2_eq, join2_eq]
  exact List.append_cancel_left_eq _ _ _ |>.to_iff

/-! ## Taking a path apart -/

/-- Leading separators count once. -/
def squeezeRoot (path : Str) : Str :=
  if path.head? = some '/' then '/' :: path.dropWhile (· == '/') else path

/-- The part of `path` in front of its last name, with the separators that end it. -/
def upToName (path : Str) : Str :=
  (chompSep path).rdropWhile (· != '/')

/-- `File.basename`, of a path that is more than separators. -/
def basename (path : Str) : Str :=
  (chompSep path).rtakeWhile (· != '/')

/-- `File.dirname`. -/
def dirname (path : Str) : Str :=
  let dir := chompSep (upToName path)
  if dir ≠ [] then squeezeRoot dir
  else if path.head? = some '/' then ['/']
  else ['.']

/-- `File.extname`: from the last dot of the last name, unless that dot starts or ends the name. -/
def extname (path : Str) : Str :=
  let stem := (basename path).rdropWhile (· != '.')
  let ext := (basename path).rtakeWhile (· != '.')
  if stem.length ≤ 1 ∨ ext = [] then [] else '.' :: ext

/-- The names between the separators. -/
def names (path : Str) : List Str :=
  (path.splitOn '/').filter (· ≠ [])

/-- The names a path is resolved by; a trailing separator stands for a last `.`. -/
def components (path : Str) : List Str :=
  names path ++ if path.getLast? = some '/' then [['.']] else []

def isAbsolute (path : Str) : Bool :=
  path.head? == some '/'

theorem sep_not_mem_of_mem_splitOn {sep : Char} {path : Str} :
    ∀ name ∈ path.splitOn sep, sep ∉ name := by
  induction path with
  | nil => simp
  | cons c path ih =>
      intro name hname
      rw [List.splitOn_cons_eq_if_modifyHead] at hname
      split at hname
      · rcases List.mem_cons.1 hname with rfl | hrest
        · simp
        · exact ih name hrest
      · next hc =>
          cases hsplit : path.splitOn sep with
          | nil => exact absurd hsplit (List.splitOn_ne_nil sep path)
          | cons front rest =>
              rw [hsplit] at ih
              simp only [hsplit, List.modifyHead_cons, List.mem_cons] at hname
              rcases hname with rfl | hrest
              -- the first name goes on with `c`, which is no separator
              · have hfront : sep ∉ front := ih front (by simp)
                have hne : sep ≠ c := by
                  rintro rfl
                  simp at hc
                simp [hne, hfront]
              · exact ih name (by simp [hrest])

theorem mem_names {path name : Str} (h : name ∈ names path) : name ≠ [] ∧ '/' ∉ name := by
  simp only [names, List.mem_filter, decide_eq_true_eq] at h
  exact ⟨h.2, sep_not_mem_of_mem_splitOn name h.1⟩

theorem names_append_sep (a b : Str) : names (a ++ '/' :: b) = names a ++ names b := by
  simp [names, List.splitOn_append_cons_self]

@[simp] theorem names_nil : names [] = [] := by
  simp [names]

theorem names_of_all_sep {s : Str} (h : ∀ c ∈ s, c = '/') : names s = [] := by
  induction s with
  | nil => exact names_nil
  | cons c s ih =>
      have hc : c = '/' := h c (by simp)
      have hs : names s = [] := ih (fun x hx => h x (by simp [hx]))
      have happ := names_append_sep [] s
      simpa [hc, hs] using happ

/-- Separators at the end of a path name nothing. -/
theorem names_append_seps (a : Str) {s : Str} (h : ∀ c ∈ s, c = '/') : names (a ++ s) = names a := by
  cases s with
  | nil => simp
  | cons c s =>
      have hc : c = '/' := h c (by simp)
      have hs : names s = [] := names_of_all_sep (fun x hx => h x (by simp [hx]))
      rw [hc, names_append_sep, hs, List.append_nil]

theorem names_chompSep (path : Str) : names (chompSep path) = names path := by
  have hparts : chompSep path ++ path.rtakeWhile (· == '/') = path := chompSep_append_rtakeWhile path
  have hseps : ∀ c ∈ path.rtakeWhile (· == '/'), c = '/' := by
    intro c hc
    simpa using List.mem_rtakeWhile_imp hc
  calc
    names (chompSep path) = names (chompSep path ++ path.rtakeWhile (· == '/')) :=
      (names_append_seps _ hseps).symm
    _ = names path := by rw [hparts]

theorem names_seps_append {s : Str} (b : Str) (h : ∀ c ∈ s, c = '/') : names (s ++ b) = names b := by
  induction s with
  | nil => rfl
  | cons c s ih =>
      have hc : c = '/' := h c (by simp)
      have hs : names (s ++ b) = names b := ih (fun x hx => h x (by simp [hx]))
      have happ := names_append_sep [] (s ++ b)
      simpa [hc, hs] using happ

theorem names_squeezeRoot (path : Str) : names (squeezeRoot path) = names path := by
  by_cases hroot : path.head? = some '/'
  · have hseps : ∀ c ∈ path.takeWhile (· == '/'), c = '/' := by
      intro c hc
      simpa using List.mem_takeWhile_imp hc
    have hrest : names (path.dropWhile (· == '/')) = names path := by
      calc
        names (path.dropWhile (· == '/'))
            = names (path.takeWhile (· == '/') ++ path.dropWhile (· == '/')) :=
              (names_seps_append _ hseps).symm
        _ = names path := by rw [List.takeWhile_append_dropWhile]
    have happ := names_append_sep [] (path.dropWhile (· == '/'))
    simpa [squeezeRoot, hroot, hrest] using happ
  · simp [squeezeRoot, hroot]

theorem names_of_no_sep {s : Str} (hne : s ≠ []) (h : '/' ∉ s) : names s = [s] := by
  simp [names, List.splitOn_eq_singleton h, hne]

theorem sep_not_mem_basename (path : Str) : '/' ∉ basename path := by
  intro hmem
  have hne := List.mem_rtakeWhile_imp hmem
  simp at hne

/-- What stands in front of the last name is nothing, or ends with a separator. -/
theorem upToName_cases (path : Str) :
    upToName path = [] ∨ ∃ u, upToName path = u ++ ['/'] := by
  by_cases hnil : upToName path = []
  · exact Or.inl hnil
  · right
    have hlast : (upToName path).getLast hnil = '/' := by
      have hnot := List.rdropWhile_last_not (· != '/') (chompSep path) hnil
      simpa [upToName] using hnot
    refine ⟨(upToName path).dropLast, ?_⟩
    have hparts := List.dropLast_append_getLast hnil
    exact (hlast ▸ hparts).symm

theorem names_eq_append_basename {path : Str} (hne : basename path ≠ []) :
    names path = names (upToName path) ++ [basename path] := by
  have hparts : upToName path ++ basename path = chompSep path := List.rdropWhile_append_rtakeWhile
  have hbase : names (basename path) = [basename path] :=
    names_of_no_sep hne (sep_not_mem_basename path)
  rcases upToName_cases path with hnil | ⟨u, hu⟩
  -- either the name is all there is, or a separator stands in front of it
  · have hpath : chompSep path = basename path := by simpa [hnil] using hparts.symm
    simpa [hnil, hpath, hbase] using (names_chompSep path).symm
  · have hpath : chompSep path = u ++ '/' :: basename path := by simpa [hu] using hparts.symm
    have hfront : names (upToName path) = names u := by
      simpa [hu] using names_append_seps u (s := ['/']) (by simp)
    calc
      names path = names (chompSep path) := (names_chompSep path).symm
      _ = names u ++ names (basename path) := by rw [hpath, names_append_sep]
      _ = names (upToName path) ++ [basename path] := by rw [hfront, hbase]

theorem getLast?_chompSep_ne (path : Str) : (chompSep path).getLast? ≠ some '/' := by
  intro hlast
  have hne : chompSep path ≠ [] := by
    intro hnil
    simp [hnil] at hlast
  have hnot := List.rdropWhile_last_not (· == '/') path hne
  apply hnot
  have hget := List.getLast?_eq_some_getLast hne
  have hsep : (chompSep path).getLast hne = '/' := Option.some.inj (hget.symm.trans hlast)
  simpa [chompSep] using hsep

theorem getLast?_squeezeRoot_ne {dir : Str} (hne : dir ≠ []) (hlast : dir.getLast? ≠ some '/') :
    (squeezeRoot dir).getLast? ≠ some '/' := by
  by_cases hroot : dir.head? = some '/'
  · -- not all of `dir` is separators, so its last character is behind the squeezed root
    have hrest : dir.dropWhile (· == '/') ≠ [] := by
      intro hnil
      have hall := List.dropWhile_eq_nil_iff.1 hnil
      apply hlast
      have hmem := List.getLast_mem hne
      have hsep := hall _ hmem
      simpa [List.getLast?_eq_some_getLast hne] using hsep
    have hsame : (dir.dropWhile (· == '/')).getLast? = dir.getLast? := by
      have hparts := List.takeWhile_append_dropWhile (p := (· == '/')) (l := dir)
      have hget := List.getLast?_append_of_ne_nil (dir.takeWhile (· == '/')) hrest
      simpa [hparts] using hget.symm
    have hcons : (squeezeRoot dir).getLast? = (dir.dropWhile (· == '/')).getLast? := by
      cases hd : dir.dropWhile (· == '/') with
      | nil => exact absurd hd hrest
      | cons c s => simp [squeezeRoot, hroot, hd]
    rwa [hcons, hsame]
  · simpa [squeezeRoot, hroot] using hlast

theorem isAbsolute_squeezeRoot (dir : Str) : isAbsolute (squeezeRoot dir) = isAbsolute dir := by
  by_cases hroot : dir.head? = some '/'
  · simp [squeezeRoot, isAbsolute, hroot]
  · simp [squeezeRoot, hroot]

theorem head?_upToName {path : Str} (hne : upToName path ≠ []) :
    (upToName path).head? = path.head? := by
  have hbody : upToName path <+: chompSep path := List.rdropWhile_prefix _ _
  have hpath : chompSep path <+: path := List.rdropWhile_prefix _ _
  rcases hbody.trans hpath with ⟨rest, hrest⟩
  have hhead : (upToName path ++ rest).head? = path.head? := congrArg List.head? hrest
  rwa [List.head?_append_of_ne_nil _ hne] at hhead

theorem isAbsolute_dirname (path : Str) : isAbsolute (dirname path) = isAbsolute path := by
  by_cases hdir : chompSep (upToName path) = []
  · by_cases hroot : path.head? = some '/'
    · simp [dirname, hdir, hroot, isAbsolute]
    · simp [dirname, hdir, hroot, isAbsolute]
  · have hne : upToName path ≠ [] := by
      intro hnil
      simp [hnil, chompSep] at hdir
    have hhead : (chompSep (upToName path)).head? = path.head? := by
      have hfront : chompSep (upToName path) <+: upToName path := List.rdropWhile_prefix _ _
      rcases hfront with ⟨rest, hrest⟩
      have hhead : (chompSep (upToName path) ++ rest).head? = (upToName path).head? :=
        congrArg List.head? hrest
      rw [List.head?_append_of_ne_nil _ hdir] at hhead
      exact hhead.trans (head?_upToName hne)
    calc
      isAbsolute (dirname path) = isAbsolute (squeezeRoot (chompSep (upToName path))) := by
        simp [dirname, hdir]
      _ = isAbsolute (chompSep (upToName path)) := isAbsolute_squeezeRoot _
      _ = isAbsolute path := by simp [isAbsolute, hhead]

theorem names_dirname (path : Str) :
    names (dirname path) = names (upToName path) ∨
      (names (dirname path) = [['.']] ∧ names (upToName path) = []) := by
  by_cases hdir : chompSep (upToName path) = []
  · have hnames : names (upToName path) = [] := by
      rw [← names_chompSep, hdir, names_nil]
    by_cases hroot : path.head? = some '/'
    · left
      have hdirname : dirname path = ['/'] := by simp [dirname, hdir, hroot]
      rw [hdirname, hnames]
      rfl
    · right
      have hdirname : dirname path = ['.'] := by simp [dirname, hdir, hroot]
      refine ⟨?_, hnames⟩
      rw [hdirname]
      rfl
  · left
    simp [dirname, hdir, names_squeezeRoot, names_chompSep]

/-- `dirname` is resolved by the names in front of the last one, or stands for the starting point. -/
theorem components_dirname (path : Str) :
    (components (dirname path) = names (upToName path)) ∨
      (components (dirname path) = [['.']] ∧ names (upToName path) = []) := by
  -- nothing but separators in front of the last name: `dirname` is `/` or `.`
  by_cases hdir : chompSep (upToName path) = []
  · right
    have hnames : names (upToName path) = [] := by
      rw [← names_chompSep, hdir, names_nil]
    refine ⟨?_, hnames⟩
    by_cases hroot : path.head? = some '/'
    · have hdirname : dirname path = ['/'] := by simp [dirname, hdir, hroot]
      rw [hdirname]
      rfl
    · have hdirname : dirname path = ['.'] := by simp [dirname, hdir, hroot]
      rw [hdirname]
      rfl
  · left
    have hlast := getLast?_squeezeRoot_ne hdir (getLast?_chompSep_ne (upToName path))
    simp [dirname, hdir, components, hlast, names_squeezeRoot, names_chompSep]

/-! ## Names of joined paths -/

theorem names_join2 (a b : Str) : names (join2 a b) = names a ++ names b := by
  rw [join2_eq, landing]
  by_cases hb : b.head? = some '/'
  · rw [if_pos hb]
    cases b with
    | nil => simp at hb
    | cons c rest =>
        have hc : c = '/' := by simpa using hb
        have hrest : names ('/' :: rest) = names rest := by
          simpa using names_append_sep [] rest
        rw [hc, names_append_sep, names_chompSep, hrest]
  · rw [if_neg hb]
    have hseps : ∃ rest, separators a = '/' :: rest ∧ ∀ c ∈ rest, c = '/' := by
      unfold separators
      split
      · next hlast =>
          have hall : ∀ c ∈ a.rtakeWhile (· == '/'), c = '/' := by
            intro c hc
            simpa using List.mem_rtakeWhile_imp hc
          cases htake : a.rtakeWhile (· == '/') with
          | nil =>
              have hchomp := chompSep_append_rtakeWhile a
              rw [htake, List.append_nil] at hchomp
              rw [← hchomp] at hlast
              exact absurd hlast (getLast?_chompSep_ne a)
          | cons c rest =>
              rw [htake] at hall
              have hc : c = '/' := hall c (by simp)
              exact ⟨rest, by rw [hc], fun x hx => hall x (by simp [hx])⟩
      · exact ⟨[], rfl, by simp⟩
    rcases hseps with ⟨rest, hrest, hall⟩
    rw [hrest, List.cons_append, names_append_sep, names_chompSep, names_seps_append b hall]

theorem head?_join2 (a b : Str) : (join2 a b).head? = some (a.head?.getD '/') := by
  cases a with
  | nil =>
      by_cases hb : b.head? = some '/'
      · simp [join2, hb, chompSep]
      · simp [join2, hb]
  | cons c rest =>
      by_cases hb : b.head? = some '/'
      · rw [join2, if_pos hb]
        have hparts := chompSep_append_rtakeWhile (c :: rest)
        cases hchomp : chompSep (c :: rest) with
        | nil =>
            -- nothing but separators, the first of them `c`
            have hmem : c ∈ (c :: rest).rtakeWhile (· == '/') := by
              rw [hchomp, List.nil_append] at hparts
              rw [hparts]
              exact List.mem_cons_self
            have hc : c = '/' := by simpa using List.mem_rtakeWhile_imp hmem
            simp [hb, hc]
        | cons d front =>
            rw [hchomp] at hparts
            have hhead : d = c := (List.cons.inj hparts).1
            simp [hhead]
      · by_cases hlast : (c :: rest).getLast? = some '/'
        · rw [join2, if_neg hb, if_pos hlast]
          rfl
        · rw [join2, if_neg hb, if_neg hlast]
          rfl

theorem names_join (parts : List Str) : names (join parts) = parts.flatMap names := by
  have hfold : ∀ (parts : List Str) (front : Str),
      names (parts.foldl join2 front) = names front ++ parts.flatMap names := by
    intro parts
    induction parts with
    | nil => simp
    | cons part parts ih =>
        intro front
        rw [List.foldl_cons, ih, names_join2, List.flatMap_cons, List.append_assoc]
  cases parts with
  | nil => simp [join]
  | cons part parts => rw [join, hfold, List.flatMap_cons]

/-- Joining adds nothing but separators. -/
theorem mem_join {c : Char} (hc : c ≠ '/') (parts : List Str) :
    c ∈ join parts ↔ ∃ part ∈ parts, c ∈ part := by
  have hchomp : ∀ a : Str, c ∈ chompSep a ↔ c ∈ a := by
    intro a
    have hseps : c ∉ a.rtakeWhile (· == '/') := fun hmem =>
      hc (by simpa using List.mem_rtakeWhile_imp hmem)
    have hparts : c ∈ chompSep a ++ a.rtakeWhile (· == '/') ↔ c ∈ a := by
      rw [chompSep_append_rtakeWhile]
    simpa [hseps] using hparts
  have hpair : ∀ a b : Str, c ∈ join2 a b ↔ c ∈ a ∨ c ∈ b := by
    intro a b
    unfold join2
    split
    · simp [hchomp]
    · split
      · simp
      · simp [hc]
  have hfold : ∀ (parts : List Str) (front : Str),
      c ∈ parts.foldl join2 front ↔ c ∈ front ∨ ∃ part ∈ parts, c ∈ part := by
    intro parts
    induction parts with
    | nil => simp
    | cons part parts ih =>
        intro front
        rw [List.foldl_cons, ih, hpair, or_assoc]
        simp
  cases parts with
  | nil => simp [join]
  | cons part parts => rw [join, hfold]; simp

/-! ## Pieces -/

/-- The last piece in front and the first one behind are put together. -/
theorem intercalate_append_intercalate (sep : Char) (front : List Str) (x y : Str) (rest : List Str) :
    [sep].intercalate (front ++ [x]) ++ [sep].intercalate (y :: rest) =
      [sep].intercalate (front ++ (x ++ y) :: rest) := by
  induction front with
  | nil =>
      cases rest with
      | nil => simp
      | cons z rest => simp
  | cons w front ih =>
      have hmore : ∀ (z : Str) (zs : List Str), [sep].intercalate (w :: front ++ z :: zs) =
          w ++ sep :: [sep].intercalate (front ++ z :: zs) := by
        intro z zs
        rw [List.cons_append, List.intercalate_cons_of_ne_nil (by simp)]
        simp
      rw [hmore, hmore, ← ih, List.append_assoc, List.cons_append]

/-- A text begins another one if the pieces between the separators are the same, up to the last one,
which begins the piece that is there. -/
theorem prefix_iff_splitOn (sep : Char) {a b : Str} :
    a <+: b ↔ ∃ front last name rest, a.splitOn sep = front ++ [last] ∧
      b.splitOn sep = front ++ name :: rest ∧ last <+: name := by
  have ha : [sep].intercalate (a.splitOn sep) = a := List.intercalate_splitOn sep
  constructor
  · rintro ⟨s, rfl⟩
    have hs : [sep].intercalate (s.splitOn sep) = s := List.intercalate_splitOn sep
    have hfree : ∀ piece ∈ a.splitOn sep, sep ∉ piece := sep_not_mem_of_mem_splitOn
    have hfree' : ∀ piece ∈ s.splitOn sep, sep ∉ piece := sep_not_mem_of_mem_splitOn
    cases hsplit : s.splitOn sep with
    | nil => exact absurd hsplit (List.splitOn_ne_nil sep s)
    | cons y rest =>
        rcases List.eq_nil_or_concat (a.splitOn sep) with hnil | ⟨front, x, hfront⟩
        · exact absurd hnil (List.splitOn_ne_nil sep a)
        · rw [hfront] at hfree
          rw [hsplit] at hfree'
          refine ⟨front, x, x ++ y, rest, by simpa using hfront, ?_, List.prefix_append x y⟩
          have hwhole : a ++ s = [sep].intercalate (front ++ (x ++ y) :: rest) := by
            rw [← intercalate_append_intercalate, ← hsplit, hs, ← List.concat_eq_append, ← hfront, ha]
          rw [hwhole, List.splitOn_intercalate sep _ (by simp)]
          intro piece hpiece
          rcases List.mem_append.1 hpiece with hpiece | hpiece
          · exact hfree piece (by simp [hpiece])
          · rcases List.mem_cons.1 hpiece with rfl | hpiece
            · have hx := hfree x (by simp)
              have hy := hfree' y (by simp)
              simp [hx, hy]
            · exact hfree' piece (by simp [hpiece])
  · rintro ⟨front, x, _, rest, hfront, hsplit, y, rfl⟩
    have hb : [sep].intercalate (b.splitOn sep) = b := List.intercalate_splitOn sep
    rw [hsplit, ← intercalate_append_intercalate, ← hfront, ha] at hb
    exact ⟨_, hb⟩

end File
end Ruby
