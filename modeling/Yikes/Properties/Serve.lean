import Yikes.Lib.Controllers

/-!
# Serve — which requests are answered with a file

`do_send_file` compares the text of the resolved path with the text of the root as it was given.  That
is a test on names, of which the last one need only begin the name it is compared with (`Loc.Opens`).

* `index_eq` says what is sent, by the place that the names of the request lead to from the root;
* a root opens what is below and beside it if it is given by its own real path (`Loc.opens_text`), and
  otherwise what is aside of it as it is written (`opens_iff_aside`), if there is such a thing at all;
* `Proper` are the requests for which that is right, and `contained_iff` is the result.
-/

namespace Yikes

open Ruby

namespace StaticFileControllerBase

/-- The path a request stands for. -/
def requested (target : Str) (paths : List Str) : Str :=
  File.join [target, File.join paths]

def IsFile (t : Tree) (loc : Loc) : Prop :=
  ∃ readable, t.node? loc = some (.file readable)

/-- The path leads to a file strictly below the place the root is at. -/
def Below (t : Tree) (target path : Str) : Prop :=
  ∃ root loc, t.stat target = some root ∧ t.stat path = some loc ∧ IsFile t loc ∧ root <+: loc ∧
    root ≠ loc

/-- The request is answered with the file it leads to if that is strictly below the root, and with
nothing otherwise. -/
def Contained (t : Tree) (controller : StaticFileController) (target : Str) (paths : List Str) : Prop :=
  ∃ answer, index t controller target paths = .ok answer ∧
    (answer.isSome = true ↔ Below t target (requested target paths))

/-! ## Requests that are answered as they should be -/

/-- No text of the request has a null character. -/
def NoNull (target : Str) (paths : List Str) : Prop :=
  ∀ text ∈ target :: paths, '\x00' ∉ text

/-- The names of the request lead from the root to this place. -/
def LeadsTo (t : Tree) (root : Loc) (paths : List Str) (loc : Loc) : Prop :=
  t.Finds root (paths.flatMap File.names) loc

/-- The place is that of a file, and the system comes to it: the way to it does not go on behind a
file, as in `a.jpg/..`, which Ruby resolves. -/
def Reached (t : Tree) (path : Str) (loc : Loc) : Prop :=
  IsFile t loc ∧ t.stat path = some loc

/-- Up to its last name the root is written as the real path of a directory. -/
def WrittenAt (t : Tree) (target : Str) (dir : Loc) (last : Str) : Prop :=
  t.isDir dir = true ∧ target.splitOn '/' = [] :: dir ++ [last]

/-- In the directory where the root is written, the place is at or below a name that goes on behind the
last one of the root. -/
def Aside (t : Tree) (target : Str) (loc : Loc) : Prop :=
  ∃ dir last more rest, WrittenAt t target dir last ∧ loc = dir ++ (last ++ more) :: rest ∧ more ≠ []

/-- What a request may lead to.  From a root that is given by its own real path: nothing beside it, and
of what is at or below it the files.  From any other root: what is aside of it where it is written, just
when it is a file below it. -/
structure Proper (t : Tree) (target : Str) (root : Loc) (paths : List Str) : Prop where
  noNull : NoNull target paths
  own : target = Loc.text root → ∀ loc, LeadsTo t root paths loc →
    ¬ Loc.Beside root loc ∧ (root <+: loc → Reached t (requested target paths) loc)
  other : target ≠ Loc.text root → ∀ loc, LeadsTo t root paths loc →
    (Aside t target loc ↔ root <+: loc ∧ Reached t (requested target paths) loc)

theorem ne_of_file {t : Tree} {root loc : Loc} (hdir : t.isDir root = true) (hfile : IsFile t loc) :
    root ≠ loc := by
  rintro rfl
  rcases hfile with ⟨readable, hnode⟩
  rcases Tree.isDir_iff.1 hdir with ⟨w, hroot⟩
  rw [hnode] at hroot
  cases hroot

theorem noNull_iff {target : Str} {paths : List Str} :
    NoNull target paths ↔ '\x00' ∉ requested target paths := by
  rw [requested, File.mem_join (by decide)]
  simp [NoNull, File.mem_join]

theorem not_contained_of_null {t : Tree} {target : Str} {controller : StaticFileController}
    {paths : List Str} (hnull : ¬ NoNull target paths) : ¬ Contained t controller target paths := by
  rintro ⟨answer, hindex, _⟩
  have hmem : '\x00' ∈ requested target paths := by
    by_contra hnot
    exact hnull (noNull_iff.2 hnot)
  have hpath : pathname (requested target paths) =
      .error (.raised "string contains null byte".toList) := if_pos hmem
  rw [index, doSendFile, ← requested, hpath] at hindex
  cases hindex

section Root

variable {t : Tree} {target : Str} {root : Loc} (hroot : t.stat target = some root)

include hroot

/-- The request starts from the root. -/
theorem realpath_requested {paths : List Str} {loc : Loc} :
    t.realpath (requested target paths) = .ok loc ↔ LeadsTo t root paths loc := by
  have hstart : t.Finds (Tree.origin t.cwd target) (File.names target) root :=
    Tree.realpath_eq_ok_iff.1 (Tree.realpath_of_stat hroot)
  have hne : target ≠ [] := by
    rintro rfl
    simp [Tree.stat, Tree.follow] at hroot
  have horigin : Tree.origin t.cwd (requested target paths) = Tree.origin t.cwd target := by
    have hhead : (requested target paths).head? = target.head? := by
      rw [requested, File.join_pair, File.head?_join2]
      cases target with
      | nil => exact absurd rfl hne
      | cons c rest => rfl
    simp [Tree.origin, File.isAbsolute, hhead]
  have hnames : File.names (requested target paths) =
      File.names target ++ paths.flatMap File.names := by
    rw [requested, File.join_pair, File.names_join2, File.names_join]
  rw [Tree.realpath_eq_ok_iff, horigin, hnames, Tree.finds_append]
  constructor
  · rintro ⟨next, hfront, hback⟩
    rw [hstart.unique hfront]
    exact hback
  · exact fun hloc => ⟨root, hstart, hloc⟩

theorem below_iff {path : Str} :
    Below t target path ↔ ∃ loc, t.stat path = some loc ∧ IsFile t loc ∧ root <+: loc ∧ root ≠ loc := by
  constructor
  · rintro ⟨root', loc, hroot', hbelow⟩
    rw [hroot] at hroot'
    cases hroot'
    exact ⟨loc, hbelow⟩
  · rintro ⟨loc, hbelow⟩
    exact ⟨root, loc, hroot, hbelow⟩

/-- Without null characters the request has an answer, and what decides it is how the place is written
that the request leads to. -/
theorem index_eq {controller : StaticFileController} {paths : List Str}
    (hnull : NoNull target paths) :
    ∃ answer, index t controller target paths = .ok answer ∧
      (answer.isSome = true ↔ ∃ loc, LeadsTo t root paths loc ∧ Loc.Opens target loc) := by
  have hpath : pathname (requested target paths) = .ok (requested target paths) :=
    if_neg (noNull_iff.1 hnull)
  unfold index doSendFile
  rw [← requested, hpath]
  dsimp only [bind, Except.bind]
  cases hreal : t.realpath (requested target paths) with
  | error e =>
      refine ⟨none, rfl, ?_⟩
      simp only [Option.isSome_none, Bool.false_eq_true, false_iff, not_exists, not_and]
      intro loc hloc
      rw [← realpath_requested hroot, hreal] at hloc
      cases hloc
  | ok loc =>
      have hlead := (realpath_requested hroot).1 hreal
      have hopens : Loc.Opens target loc ↔ target <+: Loc.text loc :=
        Loc.opens_iff (Tree.validName_realpath hreal)
      have hsame : (∃ loc', LeadsTo t root paths loc' ∧ Loc.Opens target loc') ↔
          Loc.Opens target loc := by
        constructor
        · rintro ⟨loc', hlead', hopens'⟩
          rwa [hlead.unique hlead']
        · exact fun h => ⟨loc, hlead, h⟩
      rw [hsame, hopens, ← Str.index_eq_zero_iff]
      dsimp only
      split
      · next hindex => exact ⟨_, rfl, by simp [hindex]⟩
      · next hindex => exact ⟨none, rfl, by simp [hindex]⟩

variable (hdir : t.isDir root = true)

include hdir

/-- The answer is right if and only if a file below the root, and nothing else, is opened. -/
theorem contained_iff_opens (controller : StaticFileController) {paths : List Str}
    (hnull : NoNull target paths) :
    Contained t controller target paths ↔ ∀ loc, LeadsTo t root paths loc →
      (Loc.Opens target loc ↔ root <+: loc ∧ Reached t (requested target paths) loc) := by
  have hindex : ∃ answer, index t controller target paths = .ok answer ∧
      (answer.isSome = true ↔ ∃ loc, LeadsTo t root paths loc ∧ Loc.Opens target loc) :=
    index_eq hroot hnull
  rcases hindex with ⟨answer, hindex, hanswer⟩
  -- what the system resolves is where the names lead
  have hstat : ∀ {loc : Loc}, t.stat (requested target paths) = some loc → LeadsTo t root paths loc :=
    fun h => (realpath_requested hroot).1 (Tree.realpath_of_stat h)
  have hcontained : Contained t controller target paths ↔
      ((∃ loc, LeadsTo t root paths loc ∧ Loc.Opens target loc) ↔
        Below t target (requested target paths)) := by
    rw [← hanswer]
    constructor
    · rintro ⟨answer', hindex', hiff⟩
      rw [hindex] at hindex'
      cases hindex'
      exact hiff
    · exact fun hiff => ⟨answer, hindex, hiff⟩
  rw [hcontained, below_iff hroot]
  constructor
  · intro hiff loc hlead
    refine ⟨fun hopens => ?_, ?_⟩
    · rcases hiff.1 ⟨loc, hlead, hopens⟩ with ⟨loc', hstat', hfile, hbelow, _⟩
      have hsame := hlead.unique (hstat hstat')
      subst hsame
      exact ⟨hbelow, hfile, hstat'⟩
    · rintro ⟨hbelow, hfile, hstat'⟩
      rcases hiff.2 ⟨loc, hstat', hfile, hbelow, ne_of_file hdir hfile⟩ with ⟨loc', hlead', hopens⟩
      rwa [hlead.unique hlead']
  · intro hplace
    constructor
    · rintro ⟨loc, hlead, hopens⟩
      rcases (hplace loc hlead).1 hopens with ⟨hbelow, hfile, hstat'⟩
      exact ⟨loc, hstat', hfile, hbelow, ne_of_file hdir hfile⟩
    · rintro ⟨loc, hstat', hfile, hbelow, _⟩
      exact ⟨loc, hstat hstat', (hplace loc (hstat hstat')).2 ⟨hbelow, hfile, hstat'⟩⟩

omit hdir in
/-- A root that is not given by its own real path opens what is aside of it as it is written. -/
theorem opens_iff_aside (hother : target ≠ Loc.text root) {loc : Loc} (hreal : t.IsReal loc) :
    Loc.Opens target loc ↔ Aside t target loc := by
  have hparts : ['/'].intercalate (target.splitOn '/') = target := List.intercalate_splitOn '/'
  -- otherwise the root would be at the place it is the text of
  have hnot : ∀ place, t.IsReal place → target.splitOn '/' ≠ Loc.pieces place := by
    intro place hplace hsplit
    have htext : target = Loc.text place := by
      rw [← hparts, hsplit, Loc.text_eq_intercalate]
    have hsame : t.realpath (Loc.text place) = .ok place := Tree.realpath_text_of_isReal hplace
    rw [← htext, Tree.realpath_of_stat hroot] at hsame
    cases hsame
    exact hother htext
  constructor
  · rintro ⟨front, last, name, rest, hsplit, hpieces, more, rfl⟩
    cases front with
    | nil =>
        -- the first piece of a place is empty, so the root would be given by no text at all
        rcases List.cons.inj hpieces with ⟨hempty, -⟩
        have hlast : last = [] := by simpa using (List.append_eq_nil_iff.1 hempty.symm).1
        rw [hsplit, hlast] at hparts
        rw [← hparts] at hroot
        simp [Tree.stat, Tree.follow] at hroot
    | cons first dir =>
        rcases List.cons.inj hpieces with ⟨rfl, htail⟩
        by_cases hnil : loc = []
        · -- `/` is the text of the root of the tree
          have hempty : [[]] = dir ++ (last ++ more) :: rest := by simpa [hnil] using htail
          cases dir with
          | nil =>
              have hlast : last = [] := by simp_all
              exact absurd (by simp [hsplit, hlast, Loc.pieces])
                (hnot [] (Tree.isReal_of_isDir (Tree.isDir_root t)))
          | cons x dir => simp at hempty
        · rw [if_neg hnil] at htail
          have hplace : t.IsReal (dir ++ [last ++ more]) := by
            have hwhole : t.IsReal ((dir ++ [last ++ more]) ++ rest) := by simpa [htail] using hreal
            exact Tree.isReal_of_front hwhole
          rcases hplace with ⟨node, hnode, hlink⟩
          refine ⟨dir, last, more, rest, ⟨Tree.isDir_of_node? hnode, hsplit⟩, htail, ?_⟩
          rintro rfl
          rw [List.append_nil] at hnode
          exact hnot (dir ++ [last]) ⟨node, hnode, hlink⟩ (by simp [hsplit, Loc.pieces])
  · rintro ⟨dir, last, more, rest, ⟨-, hsplit⟩, rfl, -⟩
    exact ⟨[] :: dir, last, last ++ more, rest, hsplit, by simp [Loc.pieces], List.prefix_append _ _⟩

theorem contained_iff_proper (controller : StaticFileController) (paths : List Str) :
    Contained t controller target paths ↔ Proper t target root paths := by
  by_cases hnull : NoNull target paths
  · rw [contained_iff_opens hroot hdir controller hnull]
    by_cases htext : target = Loc.text root
    · rcases Tree.isDir_iff.1 hdir with ⟨w, hnode⟩
      have hopens : ∀ loc, Loc.Opens target loc ↔ root <+: loc ∨ Loc.Beside root loc := by
        intro loc
        rw [htext]
        exact Loc.opens_text (Tree.validName_of_node? hnode)
      constructor
      · intro hplace
        refine ⟨hnull, fun _ loc hlead => ⟨fun hbeside => ?_, fun hbelow => ?_⟩,
          fun hother => absurd htext hother⟩
        · exact hbeside.not_below ((hplace loc hlead).1 ((hopens loc).2 (Or.inr hbeside))).1
        · exact ((hplace loc hlead).1 ((hopens loc).2 (Or.inl hbelow))).2
      · intro hproper loc hlead
        rcases hproper.own htext loc hlead with ⟨hbeside, hfile⟩
        rw [hopens]
        exact ⟨fun h => (h.resolve_right hbeside).elim fun rest hrest =>
          ⟨⟨rest, hrest⟩, hfile ⟨rest, hrest⟩⟩, fun h => Or.inl h.1⟩
    · have hopens : ∀ loc, LeadsTo t root paths loc → (Loc.Opens target loc ↔ Aside t target loc) :=
        fun loc hlead => opens_iff_aside hroot htext
          (Tree.isReal_realpath ((realpath_requested hroot).2 hlead))
      constructor
      · intro hplace
        refine ⟨hnull, fun hsame => absurd hsame htext, fun _ loc hlead => ?_⟩
        rw [← hopens loc hlead]
        exact hplace loc hlead
      · intro hproper loc hlead
        rw [hopens loc hlead]
        exact hproper.other htext loc hlead
  · exact iff_of_false (not_contained_of_null hnull) fun hproper => hnull hproper.noNull

omit hroot hdir in
/-- A relative root is not written at any place. -/
theorem not_writtenAt_of_relative (hrelative : File.isAbsolute target = false) (dir : Loc)
    (last : Str) : ¬ WrittenAt t target dir last := by
  rintro ⟨-, hsplit⟩
  have hparts : ['/'].intercalate (target.splitOn '/') = target := List.intercalate_splitOn '/'
  have hhead : target.head? = some '/' := by
    rw [← hparts, hsplit]
    cases dir <;> rfl
  simp [File.isAbsolute, hhead] at hrelative

omit hroot in
/-- A root that is not written where it is, up to the last name, opens nothing. -/
theorem proper_of_not_written (hnot : ∀ dir last, ¬ WrittenAt t target dir last) (paths : List Str) :
    Proper t target root paths ↔
      NoNull target paths ∧ ∀ loc, LeadsTo t root paths loc → root <+: loc →
        ¬ Reached t (requested target paths) loc := by
  have hother : target ≠ Loc.text root := by
    intro htext
    rcases Tree.isDir_iff.1 hdir with ⟨w, hnode⟩
    have hsplit : target.splitOn '/' = Loc.pieces root := by
      rw [htext, Loc.splitOn_text (Tree.validName_of_node? hnode)]
    rcases List.eq_nil_or_concat root with rfl | ⟨dir, last, rfl⟩
    · exact hnot [] [] ⟨Tree.isDir_root t, by rw [hsplit]; rfl⟩
    · rw [List.concat_eq_append] at hnode hsplit
      exact hnot dir last ⟨Tree.isDir_of_node? hnode, by simp [hsplit, Loc.pieces]⟩
  have haside : ∀ loc, ¬ Aside t target loc := by
    rintro loc ⟨dir, last, more, rest, hwritten, -⟩
    exact hnot dir last hwritten
  constructor
  · exact fun hproper => ⟨hproper.noNull, fun loc hlead hbelow hreached =>
      haside loc ((hproper.other hother loc hlead).2 ⟨hbelow, hreached⟩)⟩
  · rintro ⟨hnull, hplace⟩
    refine ⟨hnull, fun htext => absurd htext hother, fun _ loc hlead => iff_of_false (haside loc) ?_⟩
    rintro ⟨hbelow, hreached⟩
    exact hplace loc hlead hbelow hreached

end Root

/-- A request is answered as it should be if and only if it is proper.  For a root whose path passes a
link or a name like `..` before its last name, and for a relative one, that means that no file below it
is asked for. -/
theorem contained_iff {t : Tree} {target : Str} {root : Loc} (hroot : t.stat target = some root)
    (hdir : t.isDir root = true) (controller : StaticFileController) (paths : List Str) :
    (Contained t controller target paths ↔ Proper t target root paths) ∧
      ((∀ dir last, ¬ WrittenAt t target dir last) →
        (Proper t target root paths ↔
          NoNull target paths ∧ ∀ loc, LeadsTo t root paths loc → root <+: loc →
            ¬ Reached t (requested target paths) loc)) ∧
      (File.isAbsolute target = false → ∀ dir last, ¬ WrittenAt t target dir last) :=
  ⟨contained_iff_proper hroot hdir controller paths,
    fun hnot => proper_of_not_written hdir hnot paths, not_writtenAt_of_relative⟩

end StaticFileControllerBase

namespace Sample

/-- A directory `preview.old` beside `preview`, with a file in it. -/
def previews : Tree :=
  (((Tree.empty 8).put [] "preview".toList (.dir true)).put [] "preview.old".toList (.dir true)).put
    ["preview.old".toList] "a.jpg".toList (.file true)

end Sample

/-- The request leads to a file below the root. -/
theorem contained_iff_sample :
    StaticFileControllerBase.Contained Sample.previews .preview "/preview.old".toList
      ["a.jpg".toList] := by
  have hroot : Sample.previews.stat "/preview.old".toList = some ["preview.old".toList] := by
    decide
  have hdir : Sample.previews.isDir ["preview.old".toList] = true := by
    decide
  have hstat : Sample.previews.stat (StaticFileControllerBase.requested "/preview.old".toList
      ["a.jpg".toList]) = some ["preview.old".toList, "a.jpg".toList] := by
    decide
  have hnode : Sample.previews.node? ["preview.old".toList, "a.jpg".toList] = some (.file true) := by
    decide
  have hlead : StaticFileControllerBase.LeadsTo Sample.previews ["preview.old".toList]
      ["a.jpg".toList] ["preview.old".toList, "a.jpg".toList] :=
    (StaticFileControllerBase.realpath_requested hroot).1 (Tree.realpath_of_stat hstat)
  refine (StaticFileControllerBase.contained_iff hroot hdir .preview ["a.jpg".toList]).1.2
    ⟨?_, fun _ loc hloc => ?_, fun hother => absurd rfl hother⟩
  · unfold StaticFileControllerBase.NoNull
    decide
  · rw [← hlead.unique hloc]
    refine ⟨fun hbeside => hbeside.not_below ?_, fun _ => ⟨⟨true, hnode⟩, hstat⟩⟩
    decide

/-- With `/preview` as its root the server sends a file from `/preview.old`. -/
theorem sibling_is_sent :
    StaticFileControllerBase.index Sample.previews .preview "/preview".toList
        ["..".toList, "preview.old".toList, "a.jpg".toList] =
      .ok (some ("/preview/../preview.old/a.jpg".toList, "image/jpeg".toList)) ∧
    ¬ StaticFileControllerBase.Contained Sample.previews .preview "/preview".toList
        ["..".toList, "preview.old".toList, "a.jpg".toList] := by
  have hindex : StaticFileControllerBase.index Sample.previews .preview "/preview".toList
      ["..".toList, "preview.old".toList, "a.jpg".toList] =
        .ok (some ("/preview/../preview.old/a.jpg".toList, "image/jpeg".toList)) := by
    decide
  refine ⟨hindex, ?_⟩
  rintro ⟨answer, hanswer, hiff⟩
  rw [hindex] at hanswer
  cases hanswer
  rcases hiff.1 rfl with ⟨root, loc, hroot, hstat, _, hbelow, _⟩
  have hroot' : Sample.previews.stat "/preview".toList = some ["preview".toList] := by
    decide
  have hstat' : Sample.previews.stat (StaticFileControllerBase.requested "/preview".toList
      ["..".toList, "preview.old".toList, "a.jpg".toList]) =
        some ["preview.old".toList, "a.jpg".toList] := by
    decide
  have hroot'' := hroot.symm.trans hroot'
  have hstat'' := hstat.symm.trans hstat'
  cases hroot''
  cases hstat''
  revert hbelow
  decide

end Yikes
