import Yikes.Ruby.Pattern
import Yikes.Ruby.Files
import Yikes.Ruby.Realpath

/-!
# Listing — what `**/*` behind a path lists

* `listing t root` has the names that lead from `root` to everything below it, links not followed
  and names with a leading dot left out (`mem_listing`), each once (`nodup_listing`).
* A path that closes is read as names in front of `**` and `*` (`Opens`); a path that does not
  close has a name that no entry matches (`segments_open`).
* A path without wildcards is one such name after the other, and the pattern then lists just what is
  below it (`expand_listing`).
-/

namespace Ruby

open Ruby.Tree

namespace Glob

/-! ## The entries of a directory -/

theorem eq_of_entry {loc dir : Loc} {name : Str}
    (h : (if loc.dropLast = dir then loc.getLast? else none) = some name) :
    loc = dir ++ [name] := by
  split at h
  · next hdir =>
      rw [← hdir]
      exact (List.dropLast_append_getLast? _ (by simpa using h)).symm
  · cases h

theorem mem_entries {t : Tree} {dir : Loc} {name : Str} :
    name ∈ entries t dir ↔ (t.node? (dir ++ [name])).isSome = true := by
  have hne : dir ++ [name] ≠ [] := by simp
  have hkeys : dir ++ [name] ∈ t.nodes.keys ↔ (t.node? (dir ++ [name])).isSome = true := by
    simp only [Tree.node?, hne, if_false, AList.lookup_isSome, AList.mem_keys]
  rw [← hkeys, entries, List.mem_filterMap]
  constructor
  · rintro ⟨loc, hloc, hname⟩
    rwa [← eq_of_entry hname]
  · intro hloc
    exact ⟨_, hloc, by simp⟩

theorem nodup_entries (t : Tree) (dir : Loc) : (entries t dir).Nodup := by
  refine (AList.keys_nodup t.nodes).filterMap ?_
  intro loc loc' name hname hname'
  exact (eq_of_entry hname).trans (eq_of_entry hname').symm

theorem eq_of_subdir {t : Tree} {loc dir : Loc} {rel : List Str}
    (h : (if dir <+: loc ∧ dir ≠ loc ∧ t.isDir loc ∧
        ∀ name ∈ loc.drop dir.length, name.head? ≠ some '.' then
      some (loc.drop dir.length) else none) = some rel) :
    loc = dir ++ rel ∧ rel ≠ [] ∧ t.isDir loc = true ∧ ∀ name ∈ rel, name.head? ≠ some '.' := by
  split at h
  · next hloc =>
      rcases hloc with ⟨⟨rest, rfl⟩, hne, hisDir, hnames⟩
      have hrel : rest = rel := by simpa using h
      rw [List.drop_left] at hnames
      rw [hrel] at hne hisDir hnames ⊢
      exact ⟨rfl, by simpa using hne, hisDir, hnames⟩
  · cases h

theorem mem_subdirs {t : Tree} {dir : Loc} {rel : List Str} :
    rel ∈ subdirs t dir ↔
      rel ≠ [] ∧ t.isDir (dir ++ rel) = true ∧ ∀ name ∈ rel, name.head? ≠ some '.' := by
  rw [subdirs, List.mem_filterMap]
  constructor
  · rintro ⟨loc, _, hrel⟩
    rcases eq_of_subdir hrel with ⟨rfl, hrest⟩
    exact hrest
  · rintro ⟨hne, hisDir, hnames⟩
    have hroot : dir ++ rel ≠ [] := by simp [hne]
    rcases isDir_iff.1 hisDir with ⟨w, hnode⟩
    have hlookup : t.nodes.lookup (dir ++ rel) = some (.dir w) := by
      simpa only [Tree.node?, hroot, if_false] using hnode
    refine ⟨dir ++ rel, AList.mem_keys.1 (AList.lookup_isSome.1 (by simp [hlookup])), ?_⟩
    simpa [hne, hisDir] using hnames

theorem nodup_subdirs (t : Tree) (dir : Loc) : (subdirs t dir).Nodup := by
  refine (AList.keys_nodup t.nodes).filterMap ?_
  intro loc loc' rel hrel hrel'
  exact (eq_of_subdir hrel).1.trans (eq_of_subdir hrel').1.symm

/-! ## All that `**/*` lists -/

/-- The names that lead from `root` to what `**/*` lists below it. -/
def listing (t : Tree) (root : Loc) : List (List Str) :=
  ([] :: subdirs t root).flatMap fun dirs =>
    ((entries t (root ++ dirs)).filter (fnmatch ['*'])).map fun name => dirs ++ [name]

theorem fnmatch_star {name : Str} : fnmatch ['*'] name = true ↔ name.head? ≠ some '.' := by
  have hall : fnmatchFrom 2 ['*'] name = true := by
    have hnil : [] ∈ name.tails := by simp
    simp only [fnmatchFrom, List.any_eq_true]
    exact ⟨[], hnil, rfl⟩
  by_cases hdot : name.head? = some '.'
  · simp [fnmatch, hdot]
  · simpa [fnmatch, hdot] using hall

theorem isDir_of_below {t : Tree} {dir : Loc} {name : Str}
    (h : (t.node? (dir ++ [name])).isSome = true) : t.isDir dir = true := by
  rcases Option.isSome_iff_exists.1 h with ⟨node, hnode⟩
  exact isDir_of_node? hnode

/-- The listing has everything below `root` that names without a leading dot lead to, links not
followed. -/
theorem mem_listing {t : Tree} {root : Loc} {rel : List Str} :
    rel ∈ listing t root ↔
      rel ≠ [] ∧ (t.node? (root ++ rel)).isSome = true ∧ ∀ name ∈ rel, name.head? ≠ some '.' := by
  simp only [listing, List.mem_flatMap, List.mem_map, List.mem_filter, mem_entries, fnmatch_star]
  constructor
  · rintro ⟨dirs, hdirs, name, ⟨hnode, hname⟩, rfl⟩
    refine ⟨by simp, by simpa using hnode, ?_⟩
    have hfront : ∀ x ∈ dirs, x.head? ≠ some '.' := by
      rcases List.mem_cons.1 hdirs with rfl | hdirs
      · simp
      · exact (mem_subdirs.1 hdirs).2.2
    intro x hx
    rcases List.mem_append.1 hx with hx | hx
    · exact hfront x hx
    · rw [List.mem_singleton.1 hx]
      exact hname
  · rintro ⟨hne, hnode, hnames⟩
    rcases List.eq_nil_or_concat' rel with rfl | ⟨dirs, name, rfl⟩
    · exact absurd rfl hne
    · rw [← List.append_assoc] at hnode
      have hdir : t.isDir (root ++ dirs) = true := isDir_of_below hnode
      refine ⟨dirs, ?_, name, ⟨hnode, hnames name (by simp)⟩, rfl⟩
      by_cases hnil : dirs = []
      · simp [hnil]
      · have hsub := mem_subdirs.2 ⟨hnil, hdir, fun x hx => hnames x (by simp [hx])⟩
        exact List.mem_cons_of_mem _ hsub

theorem nodup_listing (t : Tree) (root : Loc) : (listing t root).Nodup := by
  have hdirs : ([] :: subdirs t root).Nodup := by
    refine List.nodup_cons.2 ⟨fun hmem => ?_, nodup_subdirs t root⟩
    exact (mem_subdirs.1 hmem).1 rfl
  refine List.nodup_flatMap.2 ⟨?_, ?_⟩
  · intro dirs _
    refine List.Nodup.map ?_ ((nodup_entries t _).filter _)
    intro name name' hsame
    simpa using hsame
  · refine hdirs.imp ?_
    intro dirs dirs' hne rel hrel hrel'
    rcases List.mem_map.1 hrel with ⟨name, _, rfl⟩
    rcases List.mem_map.1 hrel' with ⟨name', _, hsame⟩
    exact hne (List.append_inj' hsame rfl).1.symm

/-! ## Path texts -/

theorem foldl_add (text : Str) (names : List Str) :
    names.foldl Base.add (text, true) = (text ++ names.flatMap fun name => '/' :: name, true) := by
  induction names generalizing text with
  | nil => simp
  | cons name names ih => simp [Base.add, ih]

theorem sep_intercalate {names : List Str} (hne : names ≠ []) :
    '/' :: ['/'].intercalate names = names.flatMap fun name => '/' :: name := by
  induction names with
  | nil => exact absurd rfl hne
  | cons name names ih =>
      cases names with
      | nil => simp
      | cons next names =>
          have hrest := ih (by simp)
          rw [List.intercalate_cons_cons, List.flatMap_cons, ← hrest]
          simp

theorem foldl_add_root (root : Str) {names : List Str} (hne : names ≠ []) :
    names.foldl Base.add (root, false) = (root ++ ['/'].intercalate names, true) := by
  cases names with
  | nil => exact absurd rfl hne
  | cons name names =>
      rw [List.foldl_cons]
      have hfold := foldl_add (root ++ name) names
      by_cases hnil : names = []
      · simp [hnil, Base.add]
      · have hsep := sep_intercalate hnil
        rw [List.intercalate_cons_of_ne_nil hnil]
        simp only [Base.add]
        simp [hfold, ← hsep]

/-! ## The pattern of a library -/

/-- What stands behind the path of a library in its pattern. -/
def everything : Str := "/**/*".toList

/-- `path` without one trailing separator. -/
def stem (path : Str) : Str :=
  if path.getLast? = some '/' then path.dropLast else path

theorem join2_stem (path : Str) {rel : Str} (hrel : rel.head? ≠ some '/') :
    File.join2 path rel = stem path ++ '/' :: rel := by
  by_cases hsep : path.getLast? = some '/'
  · have hparts : path.dropLast ++ ['/'] = path := List.dropLast_append_getLast? _ hsep
    have hjoin : File.join2 path rel = path ++ rel := by simp [File.join2, hrel, hsep]
    rw [hjoin, stem, if_pos hsep]
    nth_rewrite 1 [← hparts]
    simp
  · simp [File.join2, stem, hrel, hsep]

theorem join_everything (path : Str) :
    File.join [path, "**".toList, "*".toList] = stem path ++ everything := by
  have hfirst : File.join2 path "**".toList = stem path ++ "/**".toList :=
    join2_stem path (by decide)
  have hlast : (stem path ++ "/**".toList).getLast? ≠ some '/' := by simp
  calc
    File.join [path, "**".toList, "*".toList]
        = File.join2 (stem path ++ "/**".toList) "*".toList := by rw [← hfirst]; rfl
    _ = stem path ++ everything := by
        simp [File.join2, everything]

theorem mem_classify {names : List Str} {name : Str} (h : name ∈ names) (hne : name ≠ ['*', '*']) :
    Segment.name name ∈ classify names := by
  fun_induction classify names with
  | case1 => simp at h
  | case2 last => simpa using h
  | case3 rest hrest segs hsegs ih =>
      have hmem : name ∈ rest := by simpa [hne] using h
      have hclass := ih hmem
      simpa [hsegs] using hclass
  | case4 rest hrest _ ih =>
      have hmem : name ∈ rest := by simpa [hne] using h
      simp [ih hmem]
  | case5 s rest hrest hs ih =>
      rcases List.mem_cons.1 h with rfl | hmem
      · simp
      · simp [ih hmem]

/-- A pattern that does not close has a name that no entry matches. -/
theorem segments_open {front : Str} (h : closes false front = false) :
    ∃ s tail, .name (s ++ '/' :: '*' :: tail) ∈ (segments (front ++ everything)).2 ∧
      ']' ∉ tail := by
  have hbody : ∀ body : Str, closes false body = false →
      ∃ s tail,
        .name (s ++ '/' :: '*' :: tail) ∈ classify (splitPattern false (body ++ everything)) ∧
          ']' ∉ tail := by
    intro body hbody
    rcases splitPattern_open false body hbody with ⟨s, tail, hmem, htail⟩
    refine ⟨s, tail, mem_classify hmem ?_, htail⟩
    intro heq
    have hsep : '/' ∈ s ++ '/' :: '*' :: tail := by simp
    rw [heq] at hsep
    simp at hsep
  unfold segments
  split
  · next rest hrest =>
      cases front with
      | nil => simp [closes] at h
      | cons c body =>
          rw [List.cons_append, List.cons.injEq] at hrest
          rcases hrest with ⟨rfl, rfl⟩
          exact hbody body (by simpa [closes] using h)
  · exact hbody front h

theorem mem_intercalate {c : Char} {name : Str} {names : List Str} (hname : name ∈ names)
    (hc : c ∈ name) : c ∈ ['/'].intercalate names := by
  induction names with
  | nil => simp at hname
  | cons first names ih =>
      by_cases hnil : names = []
      · have hsame : name = first := by simpa [hnil] using hname
        simpa [hnil, ← hsame] using hc
      · rw [List.intercalate_cons_of_ne_nil hnil]
        rcases List.mem_cons.1 hname with rfl | hmem
        · simp [hc]
        · simp [ih hmem]

/-- A text without wildcards closes, and is split into names that stand for themselves. -/
theorem literal_of_no_wildcards {pat : Str}
    (h : ∀ c ∈ pat, Ordinary c) :
    closes false pat = true ∧ ∀ name ∈ splitPattern false pat, Literal name := by
  have hliteral : ∀ name : Str, (∀ c ∈ name, Ordinary c) → Literal name := by
    intro name
    induction name with
    | nil => simp [Literal, hasMagic, unescape]
    | cons c name ih =>
        intro hname
        have hc := hname c (by simp)
        have hrest := ih fun x hx => hname x (by simp [hx])
        constructor
        · rw [hasMagic]
          · simp [hc, hrest.1]
          · simp [hc.2.2.2]
        · rw [unescape]
          · rw [hrest.2]
          · simp [hc.2.2.2]
  have hclosed : closes false pat = true := by
    induction pat with
    | nil => rfl
    | cons c pat ih =>
        have hc := h c (by simp)
        have hrest := ih fun x hx => h x (by simp [hx])
        by_cases hclose : c = ']'
        · simpa [hclose, closes] using hrest
        · rw [closes]
          · exact hrest
          all_goals simp_all
  refine ⟨hclosed, fun name hname => hliteral name fun c hc => h c ?_⟩
  have hall : c ∈ ['/'].intercalate (splitPattern false pat) := by
    exact mem_intercalate hname hc
  rwa [intercalate_splitPattern] at hall

/-- The names of a pattern that closes, in front of `**` and `*`. -/
structure Opens (front root : Str) (names : List Str) : Prop where
  segments : segments (front ++ everything) = (root, classify (names ++ [['*', '*'], ['*']]))
  start : root = [] ∨ root = ['/']
  whole : (front = [] ∧ root = ['/'] ∧ names = []) ∨
    (front ≠ [] ∧ names ≠ [] ∧ root ++ ['/'].intercalate names = front)
  literal : (∀ name ∈ names, Literal name) ↔ ∀ c ∈ front, Ordinary c

theorem opens_of_closes {front : Str} (h : closes false front = true) :
    ∃ root names, Opens front root names := by
  have hbody : ∀ body : Str, closes false body = true →
      classify (splitPattern false (body ++ everything)) =
        classify (splitPattern false body ++ [['*', '*'], ['*']]) := by
    intro body hbody
    have happ := splitPattern_append "**/*".toList false body hbody
    have htail : splitPattern false "**/*".toList = [['*', '*'], ['*']] := by decide
    rw [htail] at happ
    exact congrArg classify happ
  cases front with
  | nil =>
      refine ⟨['/'], [], rfl, Or.inr rfl, Or.inl ⟨rfl, rfl, rfl⟩, by simp⟩
  | cons c body =>
      by_cases hc : c = '/'
      · subst hc
        have hclosed : closes false body = true := by simpa [closes] using h
        refine ⟨['/'], splitPattern false body, ?_, Or.inr rfl,
          Or.inr ⟨by simp, splitPattern_ne_nil _ _, ?_⟩, ?_, ?_⟩
        · simp only [List.cons_append, segments, hbody body hclosed]
        · simp [intercalate_splitPattern]
        · intro hliteral
          simpa [Ordinary] using no_wildcards false body hclosed hliteral
        · intro hwild
          exact (literal_of_no_wildcards fun x hx => hwild x (by simp [hx])).2
      · refine ⟨[], splitPattern false (c :: body), ?_, Or.inl rfl,
          Or.inr ⟨by simp, splitPattern_ne_nil _ _, ?_⟩, ?_, ?_⟩
        · rw [← hbody _ h, segments]
          simpa using hc
        · simp [intercalate_splitPattern]
        · exact no_wildcards false _ h
        · intro hwild
          exact (literal_of_no_wildcards hwild).2

/-! ## A library without wildcards -/

/-- A path that is read as it is written: it has no wildcard, and its first brace is not closed. -/
def Plain (path : Str) : Prop :=
  (∀ c ∈ path, Ordinary c) ∧ closedBrace path = false

instance (path : Str) : Decidable (Plain path) :=
  @instDecidableAnd _ _ (List.decidableBAll Ordinary path) (inferInstance)

theorem closedBrace_append {tail : Str} (hopen : '{' ∉ tail) (hclose : '}' ∉ tail) (pat : Str) :
    closedBrace (pat ++ tail) = closedBrace pat := by
  unfold closedBrace
  rw [splitBrace_append hopen]
  cases splitBrace pat with
  | none => rfl
  | some r => simp [alternatives_append hclose]

theorem expandBraces_of_open (fuel : Nat) {pat : Str} (h : closedBrace pat = false) :
    expandBraces fuel pat = [pat] := by
  cases fuel with
  | zero => rfl
  | succ fuel =>
      unfold closedBrace at h
      rw [expandBraces]
      cases hsplit : splitBrace pat with
      | none => rfl
      | some r =>
          have hnone : alternatives 0 r.2 = none := by simpa [hsplit] using h
          simp [hnone]

/-- A path and its stem have the same characters, but for a separator. -/
theorem plain_stem {path : Str} : Plain (stem path) ↔ Plain path := by
  by_cases hsep : path.getLast? = some '/'
  · have hparts : path.dropLast ++ ['/'] = path := List.dropLast_append_getLast? _ hsep
    have hbrace : closedBrace path = closedBrace path.dropLast := by
      have happ := @closedBrace_append ['/'] (by decide) (by decide) path.dropLast
      rwa [hparts] at happ
    have hchars : (∀ c ∈ path, Ordinary c) ↔
        ∀ c ∈ path.dropLast, Ordinary c := by
      constructor
      · intro h c hc
        exact h c (List.mem_of_mem_dropLast hc)
      · intro h c hc
        rw [← hparts] at hc
        rcases List.mem_append.1 hc with hc | hc
        · exact h c hc
        · rw [List.mem_singleton.1 hc]
          decide
    rw [stem, if_pos hsep, Plain, Plain, hbrace, hchars]
  · rw [stem, if_neg hsep]

theorem glob_everything (t : Tree) (path : Str) :
    Dir.glob t (File.join [path, "**".toList, "*".toList]) =
      (expandBraces (stem path ++ everything).length (stem path)).flatMap fun front =>
        expand t (segments (front ++ everything)).2
          ((segments (front ++ everything)).1, false) := by
  rw [Dir.glob, join_everything, expandBraces_append (by decide) (by decide), List.flatMap_map]

theorem classify_cons {name : Str} {rest : List Str} (hne : name ≠ ['*', '*']) (hrest : rest ≠ []) :
    classify (name :: rest) = .name name :: classify rest := by
  rw [classify]
  · simp [hne]
  · exact hrest

theorem classify_literal {names : List Str} (h : ∀ name ∈ names, Literal name) :
    classify (names ++ [['*', '*'], ['*']]) = names.map .name ++ [.recursive, .name ['*']] := by
  induction names with
  | nil => rfl
  | cons name names ih =>
      have hne : name ≠ ['*', '*'] := by
        rintro rfl
        have hmagic := (h ['*', '*'] (by simp)).1
        simp [hasMagic] at hmagic
      rw [List.cons_append, classify_cons hne (by simp), ih fun x hx => h x (by simp [hx])]
      rfl

theorem expand_literal (t : Tree) {names : List Str} (h : ∀ name ∈ names, Literal name)
    (segs : List Segment) (base : Base) :
    expand t (names.map .name ++ segs) base = expand t segs (names.foldl Base.add base) := by
  induction names generalizing base with
  | nil => rfl
  | cons name names ih =>
      have hname := h name (by simp)
      have hrest := ih (fun x hx => h x (by simp [hx])) (base.add name)
      simp [expand, hname.1, hname.2, hrest]

/-- What `**/*` finds below a base, for a test that only what is there can pass. -/
theorem expand_listing {t : Tree} {base : Base} {root : Loc} {test : Str → Bool}
    (htest : ∀ path, test path = true → lexist? t path = true) (hbase : base.dir? t = some root)
    (hbelow : ∀ rel ∈ subdirs t root, (rel.foldl Base.add base).dir? t = some (root ++ rel)) :
    (expand t [.recursive, .name ['*']] base).filter test =
      ((listing t root).map fun rel => (rel.foldl Base.add base).1).filter test := by
  have hleaf : ∀ b : Base, (expand t [] b).filter test = [b.1].filter test := by
    intro b
    cases hb : test b.1 with
    | false => by_cases hthere : lexist? t b.1 = true <;> simp [expand, hthere, hb]
    | true => simp [expand, htest _ hb]
  have hdir : ∀ rel ∈ [] :: subdirs t root,
      (expand t [.name ['*']] (rel.foldl Base.add base)).filter test =
        (((entries t (root ++ rel)).filter (fnmatch ['*'])).map fun name =>
          ((rel ++ [name]).foldl Base.add base).1).filter test := by
    intro rel hrel
    have hrel' : (rel.foldl Base.add base).dir? t = some (root ++ rel) := by
      rcases List.mem_cons.1 hrel with rfl | hrel
      · simpa using hbase
      · exact hbelow rel hrel
    have hmagic : hasMagic ['*'] = true := rfl
    rw [expand]
    simp only [hmagic, if_true, hrel', List.filter_flatMap, hleaf]
    rw [List.map_eq_flatMap, List.filter_flatMap]
    simp
  have hall : expand t [.recursive, .name ['*']] base =
      ([] :: subdirs t root).flatMap fun rel =>
        expand t [.name ['*']] (rel.foldl Base.add base) := by
    rw [expand]
    simp only [hbase, List.flatMap_cons, List.foldl_nil]
  -- directory by directory both have the entries
  rw [hall, listing, List.filter_flatMap, List.map_flatMap, List.filter_flatMap]
  refine List.flatMap_congr ?_
  intro rel hrel
  rw [hdir rel hrel, List.map_map]
  rfl

end Glob

/-! ## The paths of what is below -/

theorem names_intercalate (names : List Str) :
    File.names (['/'].intercalate names) = names.flatMap File.names := by
  induction names with
  | nil => simp
  | cons name names ih =>
      by_cases hnil : names = []
      · simp [hnil]
      · rw [List.intercalate_cons_of_ne_nil hnil, List.append_assoc, List.singleton_append,
          File.names_append_sep, ih, List.flatMap_cons]

theorem flatMap_names {names : List Str} (h : ∀ name ∈ names, ValidName name) :
    names.flatMap File.names = names := by
  induction names with
  | nil => rfl
  | cons name names ih =>
      have hname : ValidName name := h name (by simp)
      rw [List.flatMap_cons, File.names_of_no_sep hname.1 hname.2.1, ih fun x hx => h x (by simp [hx])]
      rfl

theorem File.names_append_flatMap (front : Str) {loc : Loc} (h : ∀ name ∈ loc, ValidName name) :
    File.names (front ++ loc.flatMap fun name => '/' :: name) = File.names front ++ loc := by
  induction loc using List.reverseRecOn with
  | nil => simp
  | append_singleton loc name ih =>
      have hname : ValidName name := h name (by simp)
      have hfront := ih fun x hx => h x (by simp [hx])
      have happ := File.names_append_sep (front ++ loc.flatMap fun name => '/' :: name) name
      rw [hfront, File.names_of_no_sep hname.1 hname.2.1] at happ
      simpa using happ

theorem File.getLast?_append_name (front : Str) {name : Str} (h : ValidName name) :
    (front ++ '/' :: name).getLast? ≠ some '/' := by
  rw [List.getLast?_append_of_ne_nil _ (by simp), List.getLast?_cons_of_ne_nil h.1]
  intro hlast
  exact h.2.1 (List.mem_of_getLast? hlast)

theorem File.basename_append_sep (front : Str) {name : Str} (h : ValidName name) :
    File.basename (front ++ '/' :: name) = name := by
  have hall : ∀ c ∈ name.reverse, (c != '/') = true := by
    intro c hc
    have hne : c ≠ '/' := by
      rintro rfl
      exact h.2.1 (List.mem_reverse.1 hc)
    simpa using hne
  have hchomp : File.chompSep (front ++ '/' :: name) = front ++ '/' :: name :=
    File.chompSep_of_getLast?_ne (File.getLast?_append_name front h)
  rw [File.basename, hchomp]
  simp [List.rtakeWhile, List.takeWhile_append_of_pos hall]

theorem File.extname_append_sep (front : Str) {name : Str} (h : ValidName name) :
    File.extname (front ++ '/' :: name) = File.extname name := by
  have hname : File.basename name = name := by
    have hall : ∀ c ∈ name, (c != '/') = true := by
      intro c hc
      have hne : c ≠ '/' := by
        rintro rfl
        exact h.2.1 hc
      simpa using hne
    have hchomp : File.chompSep name = name := by
      apply File.chompSep_of_getLast?_ne
      intro hlast
      exact h.2.1 (List.mem_of_getLast? hlast)
    rw [File.basename, hchomp, List.rtakeWhile_eq_self_iff.2 hall]
  simp only [File.extname, File.basename_append_sep front h, hname]

namespace Tree

theorem walk_dirs {t : Tree} {f : Loc → Str → Option Loc} {root : Loc} {rel : List Str}
    (hnames : ∀ name ∈ rel, ValidName name) (hdir : t.isDir (root ++ rel) = true) :
    t.walk f root rel = some (root ++ rel) := by
  induction rel using List.reverseRecOn with
  | nil => simp
  | append_singleton rel name ih =>
      have hname : ValidName name := hnames name (by simp)
      rw [← List.append_assoc] at hdir ⊢
      have hparent : t.isDir (root ++ rel) = true := by
        simpa using isDir_dropLast hdir
      rcases isDir_iff.1 hdir with ⟨w, hnode⟩
      have hfront := ih (fun x hx => hnames x (by simp [hx])) hparent
      have hstep : t.step f (root ++ rel) name = some (root ++ rel ++ [name]) := by
        simp only [step, hparent, hname.2.2.1, hname.2.2.2, hnode, if_true, if_false]
      rw [walk_append, hfront]
      simp [walk_cons, hstep]

/-- A path that leads somewhere is resolved by its names, its last separator aside. -/
theorem walk_names_of_stat {t : Tree} {path : Str} {loc : Loc} (h : t.stat path = some loc) :
    t.walk t.links (origin t.cwd path) (File.names path) = some loc := by
  have hpath : path ≠ [] := by
    rintro rfl
    simp [stat, follow] at h
  rw [stat_eq_walk hpath, File.components, walk_append] at h
  rcases Option.bind_eq_some_iff.1 h with ⟨loc', hloc, hlast⟩
  rw [hloc]
  split at hlast
  · rw [walk_cons] at hlast
    rcases Option.bind_eq_some_iff.1 hlast with ⟨next, hnext, hend⟩
    have hstep : loc' = next := by simpa [step, isDir_of_step hnext] using hnext
    rw [hstep]
    simpa using hend
  · simpa using hlast

theorem stat_of_walk_names {t : Tree} {path : Str} {loc : Loc} (hpath : path ≠ [])
    (h : t.walk t.links (origin t.cwd path) (File.names path) = some loc)
    (hdir : t.isDir loc = true) : t.stat path = some loc := by
  rw [stat_eq_walk hpath, File.components, walk_append, h]
  split
  · exact walk_dot hdir
  · rfl

theorem names_stem (path : Str) : File.names (Glob.stem path) = File.names path := by
  by_cases hsep : path.getLast? = some '/'
  · have hparts : path.dropLast ++ ['/'] = path := List.dropLast_append_getLast? _ hsep
    have hseps := @File.names_append_seps path.dropLast ['/'] (by simp)
    rw [hparts] at hseps
    simp [Glob.stem, hsep, hseps]
  · simp [Glob.stem, hsep]

theorem stem_append_sep {path : Str} (hpath : path ≠ []) (rest : Str) :
    (Glob.stem path ++ '/' :: rest).head? = path.head? := by
  by_cases hsep : path.getLast? = some '/'
  · have hparts : path.dropLast ++ ['/'] = path := List.dropLast_append_getLast? _ hsep
    have hhead : (path ++ rest).head? = path.head? := List.head?_append_of_ne_nil _ hpath
    rw [← hhead, ← hparts]
    simp [Glob.stem]
  · rw [Glob.stem, if_neg hsep]
    exact List.head?_append_of_ne_nil _ hpath

/-- The path of something below a directory is resolved from there. -/
theorem stat_below {t : Tree} {path : Str} {root : Loc} {rel : List Str}
    (hroot : t.stat path = some root) (hne : rel ≠ []) (hnames : ∀ name ∈ rel, ValidName name) :
    t.stat (Glob.stem path ++ rel.flatMap fun name => '/' :: name) = t.walk t.links root rel := by
  have hpath : path ≠ [] := by
    rintro rfl
    simp [stat, follow] at hroot
  have hwalk := walk_names_of_stat hroot
  rcases List.eq_nil_or_concat' rel with rfl | ⟨dirs, name, rfl⟩
  · exact absurd rfl hne
  · have hname : ValidName name := hnames name (by simp)
    have hlast : (Glob.stem path ++ (dirs ++ [name]).flatMap fun name => '/' :: name).getLast? ≠
        some '/' := by
      have hend : (dirs ++ [name]).flatMap (fun name => '/' :: name) =
          (dirs.flatMap fun name => '/' :: name) ++ '/' :: name := by simp
      rw [hend, ← List.append_assoc]
      exact File.getLast?_append_name _ hname
    have horigin :
        origin t.cwd (Glob.stem path ++ (dirs ++ [name]).flatMap fun name => '/' :: name) =
          origin t.cwd path := by
      have hsep : ∃ rest, ((dirs ++ [name]).flatMap fun name => '/' :: name) = '/' :: rest := by
        cases dirs with
        | nil => exact ⟨name, by simp⟩
        | cons first dirs => exact ⟨_, rfl⟩
      rcases hsep with ⟨rest, hrest⟩
      unfold origin File.isAbsolute
      rw [hrest, stem_append_sep hpath]
    rw [stat_eq_walk (by simp), horigin, File.components, if_neg hlast, List.append_nil,
      File.names_append_flatMap _ hnames, names_stem, walk_append, hwalk]
    rfl

end Tree

/-! ## The listing of a plain path -/

namespace Glob

/-- The base that the names of a plain path end in. -/
def baseOf (path : Str) : Base :=
  if stem path = [] then (['/'], false) else (stem path, true)

theorem foldl_baseOf (path : Str) {rel : List Str} (hne : rel ≠ []) :
    rel.foldl Base.add (baseOf path) =
      (stem path ++ rel.flatMap fun name => '/' :: name, true) := by
  by_cases hstem : stem path = []
  · rw [baseOf, if_pos hstem, foldl_add_root _ hne, hstem, ← sep_intercalate hne]
    rfl
  · rw [baseOf, if_neg hstem, foldl_add]

theorem glob_plain {path : Str} (hplain : Plain path) (t : Tree) :
    Dir.glob t (File.join [path, "**".toList, "*".toList]) =
      expand t [.recursive, .name ['*']] (baseOf path) := by
  have hstem : Plain (stem path) := plain_stem.2 hplain
  rcases opens_of_closes (literal_of_no_wildcards hstem.1).1 with ⟨root, names, hopens⟩
  have hliteral := hopens.literal.2 hstem.1
  have hbase : names.foldl Base.add (root, false) = baseOf path := by
    rcases hopens.whole with ⟨hnil, rfl, rfl⟩ | ⟨hsome, hne, hwhole⟩
    · simp [baseOf, hnil]
    · rw [foldl_add_root _ hne, hwhole, baseOf, if_neg hsome]
  rw [glob_everything, expandBraces_of_open _ hstem.2, List.flatMap_singleton, hopens.segments,
    classify_literal hliteral, expand_literal t hliteral, hbase]

theorem dir?_baseOf {t : Tree} {path : Str} {root : Loc} (hroot : t.stat path = some root)
    (hdir : t.isDir root = true) : (baseOf path).dir? t = some root := by
  have hpath : path ≠ [] := by
    rintro rfl
    simp [stat, follow] at hroot
  by_cases hstem : stem path = []
  -- nothing but the separator of the root
  · have hsep : path = ['/'] := by
      by_cases hlast : path.getLast? = some '/'
      · have hparts : path.dropLast ++ ['/'] = path := List.dropLast_append_getLast? _ hlast
        have hnil : path.dropLast = [] := by simpa [stem, hlast] using hstem
        rw [← hparts, hnil]
        rfl
      · exact absurd (by simpa [stem, hlast] using hstem) hpath
    have hstat : t.stat ['/'] = some root := by rw [← hsep, hroot]
    simp [baseOf, hstem, Base.dir?, hstat, hdir]
  · have horigin : origin t.cwd (stem path) = origin t.cwd path := by
      unfold origin File.isAbsolute
      rw [← stem_append_sep hpath [], List.head?_append_of_ne_nil _ hstem]
    have hwalk := walk_names_of_stat hroot
    rw [← names_stem, ← horigin] at hwalk
    have hstat := stat_of_walk_names hstem hwalk hdir
    simp [baseOf, hstem, Base.dir?, hstat, hdir]

theorem dir?_below {t : Tree} {path : Str} {root : Loc} {rel : List Str}
    (hroot : t.stat path = some root) (hdir : t.isDir (root ++ rel) = true) (hne : rel ≠ []) :
    (rel.foldl Base.add (baseOf path)).dir? t = some (root ++ rel) := by
  rcases isDir_iff.1 hdir with ⟨w, hnode⟩
  have hnames : ∀ name ∈ rel, ValidName name := by
    intro name hname
    exact validName_of_node? hnode name (by simp [hname])
  have hstat := stat_below hroot hne hnames
  rw [walk_dirs hnames hdir] at hstat
  have htext : stem path ++ (rel.flatMap fun name => '/' :: name) ≠ [] := by
    have hsome := sep_intercalate hne
    simp [← hsome]
  simp [foldl_baseOf path hne, Base.dir?, htext, hstat, hdir]

/-- The pattern of a plain path lists what is below it, for a test that only what is there can
pass. -/
theorem glob_listing {t : Tree} {path : Str} {root : Loc} {test : Str → Bool} (hplain : Plain path)
    (hroot : t.stat path = some root) (hdir : t.isDir root = true)
    (htest : ∀ x, test x = true → lexist? t x = true) :
    (Dir.glob t (File.join [path, "**".toList, "*".toList])).filter test =
      ((listing t root).map fun rel => stem path ++ rel.flatMap fun name => '/' :: name).filter
        test := by
  have htexts : ((listing t root).map fun rel => (rel.foldl Base.add (baseOf path)).1) =
      (listing t root).map fun rel => stem path ++ rel.flatMap fun name => '/' :: name := by
    refine List.map_congr_left ?_
    intro rel hrel
    rw [foldl_baseOf path (mem_listing.1 hrel).1]
  rw [glob_plain hplain, expand_listing htest (dir?_baseOf hroot hdir), htexts]
  intro rel hrel
  rcases mem_subdirs.1 hrel with ⟨hne, hisDir, _⟩
  exact dir?_below hroot hisDir hne

/-- What the pattern of a plain path lists is below that path, by names without a leading dot. -/
theorem of_mem_glob_plain {path x : Str} {t : Tree} (hplain : Plain path)
    (h : x ∈ Dir.glob t (File.join [path, "**".toList, "*".toList])) :
    ∃ rel : List Str, rel ≠ [] ∧ (∀ name ∈ rel, ValidName name ∧ name.head? ≠ some '.') ∧
      x = stem path ++ rel.flatMap fun name => '/' :: name := by
  have hleaf : ∀ dirs : List Str, (∀ name ∈ dirs, ValidName name ∧ name.head? ≠ some '.') →
      x ∈ expand t [.name ['*']] (dirs.foldl Base.add (baseOf path)) →
      ∃ rel : List Str, rel ≠ [] ∧ (∀ name ∈ rel, ValidName name ∧ name.head? ≠ some '.') ∧
        x = stem path ++ rel.flatMap fun name => '/' :: name := by
    intro dirs hdirs hx
    have hmagic : hasMagic ['*'] = true := rfl
    rw [expand, if_pos hmagic] at hx
    cases hdir : (dirs.foldl Base.add (baseOf path)).dir? t with
    | none => simp [hdir] at hx
    | some dir =>
        simp only [hdir, List.mem_flatMap, List.mem_filter] at hx
        rcases hx with ⟨name, ⟨hentry, hstar⟩, hlast⟩
        rcases Option.isSome_iff_exists.1 (mem_entries.1 hentry) with ⟨node, hnode⟩
        have hname : ValidName name ∧ name.head? ≠ some '.' :=
          ⟨validName_of_node? hnode name (by simp), fnmatch_star.1 hstar⟩
        have hfold : (dirs.foldl Base.add (baseOf path)).add name =
            (stem path ++ (dirs ++ [name]).flatMap fun name => '/' :: name, true) := by
          rw [← foldl_baseOf path (by simp), List.foldl_append]
          rfl
        refine ⟨dirs ++ [name], by simp, ?_, ?_⟩
        · intro n hn
          rcases List.mem_append.1 hn with hn | hn
          · exact hdirs n hn
          · rw [List.mem_singleton.1 hn]
            exact hname
        · rw [hfold, expand] at hlast
          split at hlast
          · exact List.mem_singleton.1 hlast
          · cases hlast
  -- the entries of the directory itself, and those of the directories below it
  rw [glob_plain hplain, expand] at h
  cases hdir : (baseOf path).dir? t with
  | none => simp [hdir] at h
  | some dir =>
      simp only [hdir, List.mem_append, List.mem_flatMap] at h
      rcases h with h | ⟨dirs, hdirs, h⟩
      · exact hleaf [] (by simp) h
      · rcases mem_subdirs.1 hdirs with ⟨_, hisDir, hnames⟩
        rcases isDir_iff.1 hisDir with ⟨w, hnode⟩
        refine hleaf dirs ?_ h
        intro name hname
        exact ⟨validName_of_node? hnode name (by simp [hname]), hnames name hname⟩

end Glob

end Ruby
