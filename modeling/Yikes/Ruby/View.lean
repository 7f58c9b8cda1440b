import Yikes.Ruby.Listing
import Yikes.Ruby.Trail

/-!
# View — the paths a pattern can show

What `Dir.glob` shows depends on what is there.  `CanShow` leaves that open: a path is one the pattern
can show if its names match, and `**/` goes through no link of the tree.  Among the paths that lead
somewhere the pattern shows just these (`mem_expand_iff`), so trees with the same links can show the same
paths (`canShow_congr`).
-/

namespace Ruby
namespace Glob

open Ruby.Tree File

/-- The place a base stands for, whether there is anything or not. -/
def Base.place? (t : Tree) (base : Base) : Option Loc :=
  if base.1 = [] then some t.cwd else (t.trail base.1).map Trail.last

inductive CanShow (t : Tree) : List Segment → Base → Str → Prop
  | nil (base : Base) : CanShow t [] base base.1
  /-- `**/` for no directory -/
  | here {segs : List Segment} {base : Base} {x : Str} :
      CanShow t segs base x → CanShow t (.recursive :: segs) base x
  /-- and for some -/
  | deeper {segs : List Segment} {base : Base} {x : Str} {dir : Loc} {rel : List Str}
      (hplace : base.place? t = some dir) (hne : rel ≠ [])
      (hnames : ∀ name ∈ rel, ValidName name ∧ name.head? ≠ some '.')
      (hlinks : Unlinked t dir rel) :
      CanShow t segs (rel.foldl Base.add base) x → CanShow t (.recursive :: segs) base x
  | wild {segs : List Segment} {base : Base} {x pat name : Str} (hmagic : hasMagic pat = true)
      (hname : ValidName name) (hmatch : fnmatch pat name = true) :
      CanShow t segs (base.add name) x → CanShow t (.name pat :: segs) base x
  | literal {segs : List Segment} {base : Base} {x pat : Str} (hmagic : hasMagic pat = false) :
      CanShow t segs (base.add (unescape pat)) x → CanShow t (.name pat :: segs) base x

theorem canShow_of_sameLinks {t u : Tree} (h : SameLinks t u) {segs : List Segment} {base : Base}
    {x : Str} (hshow : CanShow t segs base x) : CanShow u segs base x := by
  have hplace : ∀ base : Base, base.place? t = base.place? u := by
    intro base
    simp only [Base.place?, h.cwd, h.trail]
  induction hshow with
  | nil base => exact .nil base
  | here _ ih => exact .here ih
  | deeper hbase hne hnames hlinks _ ih =>
      rw [hplace] at hbase
      exact .deeper hbase hne hnames (hlinks.mono fun loc target => (h.link loc target).2) ih
  | wild hmagic hname hmatch _ ih => exact .wild hmagic hname hmatch ih
  | literal hmagic _ ih => exact .literal hmagic ih

/-! ## What is shown can be shown -/

theorem place?_of_dir? {t : Tree} {base : Base} {dir : Loc} (h : base.dir? t = some dir) :
    base.place? t = some dir ∧ t.isDir dir = true := by
  rcases Option.filter_eq_some_iff.1 h with ⟨hplace, hdir⟩
  refine ⟨?_, hdir⟩
  unfold Base.place?
  split at hplace
  · next hnil => rw [if_pos hnil, hplace]
  · next hne =>
      rcases Tree.stat_iff.1 hplace with ⟨r, hr, _, rfl⟩
      rw [if_neg hne, hr]
      rfl

/-- Directories below a place are reached by their names. -/
theorem unlinked_of_isDir {t : Tree} {dir : Loc} {rel : List Str} :
    t.isDir (dir ++ rel) = true → Unlinked t dir rel := by
  induction rel using List.reverseRecOn with
  | nil =>
      intro _
      trivial
  | append_singleton rel name ih =>
      intro h
      rw [← List.append_assoc] at h
      rcases isDir_iff.1 h with ⟨w, hnode⟩
      have hvalid := validName_of_node? hnode
      have hname : ValidName name := hvalid name (by simp)
      have hfront := ih (isDir_of_node? hnode)
      rw [unlinked_append, filter_text fun x hx => hvalid x (by simp [hx]), Unlinked,
        if_neg hname.2.2.1]
      refine ⟨hfront, hname.2.2.2, ?_, trivial⟩
      intro target hlink
      rw [hnode] at hlink
      cases hlink

theorem canShow_of_mem_expand {t : Tree} {segs : List Segment} {x : Str} :
    ∀ {base : Base}, x ∈ expand t segs base → CanShow t segs base x := by
  induction segs with
  | nil =>
      intro base h
      rw [expand] at h
      split at h
      · rw [List.mem_singleton.1 h]
        exact .nil base
      · cases h
  | cons seg segs ih =>
      intro base h
      cases seg with
      | recursive =>
          rw [expand] at h
          cases hdir : base.dir? t with
          | none => simp [hdir] at h
          | some dir =>
              simp only [hdir, List.mem_append, List.mem_flatMap] at h
              rcases h with h | ⟨rel, hrel, h⟩
              · exact .here (ih h)
              · rcases mem_subdirs.1 hrel with ⟨hne, hisDir, hdots⟩
                rcases isDir_iff.1 hisDir with ⟨w, hnode⟩
                have hvalid := validName_of_node? hnode
                refine .deeper (place?_of_dir? hdir).1 hne ?_ (unlinked_of_isDir hisDir) (ih h)
                intro name hname
                exact ⟨hvalid name (by simp [hname]), hdots name hname⟩
      | name pat =>
          rw [expand] at h
          split at h
          · next hmagic =>
              cases hdir : base.dir? t with
              | none => simp [hdir] at h
              | some dir =>
                  simp only [hdir, List.mem_flatMap, List.mem_filter] at h
                  rcases h with ⟨name, ⟨hentry, hmatch⟩, h⟩
                  rcases Option.isSome_iff_exists.1 (mem_entries.1 hentry) with ⟨node, hnode⟩
                  have hname := validName_of_node? hnode name (by simp)
                  exact .wild hmagic hname hmatch (ih h)
          · next hmagic => exact .literal (by simpa using hmagic) (ih h)

/-! ## What can be shown and leads somewhere is shown -/

/-- A base that names go on from: the root, or a text with a separator due. -/
def Base.Ready (base : Base) : Prop :=
  if base.2 = true then base.1 ≠ [] else base.1 = ['/']

theorem Base.Ready.add {base : Base} (h : base.Ready) (name : Str) : (base.add name).Ready := by
  unfold Base.Ready at h
  split at h
  · next hsep => simp [Ready, Base.add, hsep]
  · next hsep => simp [Ready, Base.add, hsep, h]

theorem Base.Ready.foldl {base : Base} (h : base.Ready) (names : List Str) :
    (names.foldl Base.add base).Ready := by
  induction names generalizing base with
  | nil => exact h
  | cons name names ih => exact ih (h.add name)

theorem add_append (base : Base) (a b : Str) : (base.add a).1 ++ b = (base.add (a ++ b)).1 := by
  unfold Base.add
  split <;> simp

theorem foldl_add_eq {base : Base} {rel : List Str} (hne : rel ≠ []) :
    rel.foldl Base.add base = base.add (['/'].intercalate rel) := by
  cases rel with
  | nil => exact absurd rfl hne
  | cons name rel =>
      have hfold : rel.foldl Base.add (base.add name) =
          ((base.add name).1 ++ rel.flatMap fun name => '/' :: name, true) :=
        foldl_add (base.add name).1 rel
      rw [List.foldl_cons, hfold, add_append]
      by_cases hnil : rel = []
      · simp [hnil, Base.add]
      · rw [← sep_intercalate hnil, List.intercalate_cons_of_ne_nil hnil]
        simp [Base.add]

section

variable {t : Tree} {base : Base}

theorem ne_nil_of_ready (h : base.Ready) : base.1 ≠ [] := by
  unfold Base.Ready at h
  split at h
  · exact h
  · simp [h]

theorem names_add (h : base.Ready) (rest : Str) :
    names (base.add rest).1 = names base.1 ++ names rest := by
  unfold Base.Ready at h
  split at h
  · next hsep => simp [Base.add, hsep, names_append_sep]
  · next hsep =>
      have hroot := names_append_sep [] rest
      have hnil : names ['/'] = [] := names_of_all_sep (by simp)
      simpa [Base.add, hsep, h, hnil] using hroot

theorem origin_add (h : base.Ready) (rest : Str) :
    origin t.cwd (base.add rest).1 = origin t.cwd base.1 := by
  have hhead : (base.add rest).1.head? = base.1.head? := by
    unfold Base.add
    split <;> simp [List.head?_append_of_ne_nil _ (ne_nil_of_ready h)]
  unfold origin isAbsolute
  rw [hhead]

/-- A path without names is nothing but separators. -/
theorem getLast?_of_names_nil {s : Str} (hne : s ≠ []) (h : names s = []) : s.getLast? = some '/' := by
  by_contra hlast
  have hparts := names_eq_append_basename (basename_ne_nil hne hlast)
  simp [h] at hparts

theorem getLast?_add (h : base.Ready) {rest : Str} (hnames : names rest = []) :
    (base.add rest).1.getLast? = some '/' := by
  by_cases hnil : rest = []
  · unfold Base.Ready at h
    unfold Base.add
    rw [hnil]
    split at h
    · next hsep => simp [hsep]
    · next hsep => simp [hsep, h]
  · have hlast := getLast?_of_names_nil hnil hnames
    unfold Base.add
    split
    · rw [List.getLast?_append_of_ne_nil _ (by simp), List.getLast?_cons_of_ne_nil hnil, hlast]
    · rw [List.getLast?_append_of_ne_nil _ hnil, hlast]

/-- A separator at the end asks for a directory. -/
theorem isDir_of_getLast? {path : Str} {loc : Loc} (hlast : path.getLast? = some '/')
    (h : t.stat path = some loc) : t.isDir loc = true := by
  have hne : path ≠ [] := by
    rintro rfl
    cases hlast
  rw [stat_eq_walk hne, components, if_pos hlast, walk_append] at h
  rcases Option.bind_eq_some_iff.1 h with ⟨last, _, hdot⟩
  rw [walk_cons] at hdot
  rcases Option.bind_eq_some_iff.1 hdot with ⟨next, hnext, hend⟩
  have hdir := isDir_of_step hnext
  have hsame : last = next := by simpa [step, hdir] using hnext
  cases hend
  rwa [← hsame]

/-- A path behind a base leads through the directory the base stands for. -/
theorem dir?_of_stat_add (h : base.Ready) {rest : Str} {loc : Loc}
    (hstat : t.stat (base.add rest).1 = some loc) :
    ∃ dir, base.dir? t = some dir ∧ t.walk t.links dir (names rest) = some loc := by
  have hne := ne_nil_of_ready h
  have hwalk := walk_names_of_stat hstat
  rw [names_add h, origin_add h, walk_append] at hwalk
  rcases Option.bind_eq_some_iff.1 hwalk with ⟨dir, hdir, hrest⟩
  have hisDir : t.isDir dir = true := by
    cases hnames : names rest with
    | nil =>
        rw [hnames] at hrest
        cases hrest
        exact isDir_of_getLast? (getLast?_add h hnames) hstat
    | cons name todo =>
        rw [hnames, walk_cons] at hrest
        rcases Option.bind_eq_some_iff.1 hrest with ⟨next, hnext, _⟩
        exact isDir_of_step hnext
  refine ⟨dir, ?_, hrest⟩
  rw [Base.dir?, if_neg hne, stat_of_walk_names hne hdir hisDir, Option.filter_some, if_pos hisDir]

theorem stat_of_dir? (h : base.Ready) {dir : Loc} (hdir : base.dir? t = some dir) :
    t.stat base.1 = some dir := by
  rcases Option.filter_eq_some_iff.1 hdir with ⟨hstat, _⟩
  rwa [if_neg (ne_nil_of_ready h)] at hstat

theorem isSome_of_step {f : Loc → Str → Option Loc} {cur next : Loc} {name : Str}
    (hname : ValidName name) (h : t.step f cur name = some next) :
    (t.node? (cur ++ [name])).isSome = true := by
  rw [step, if_pos (isDir_of_step h), if_neg hname.2.2.1, if_neg hname.2.2.2] at h
  cases hnode : t.node? (cur ++ [name]) with
  | none => simp [hnode] at h
  | some node => rfl

end

/-- The last segment is a name. -/
def Closed (segs : List Segment) : Prop :=
  ∃ pat, segs.getLast? = some (.name pat)

theorem closed_cons {seg : Segment} {segs : List Segment} (h : Closed (seg :: segs)) :
    segs = [] ∨ Closed segs := by
  rcases h with ⟨pat, hlast⟩
  by_cases hnil : segs = []
  · exact Or.inl hnil
  · exact Or.inr ⟨pat, by rwa [List.getLast?_cons_of_ne_nil hnil] at hlast⟩

/-- `**/` is not the last segment. -/
theorem closed_of_recursive {segs : List Segment} (h : Closed (.recursive :: segs)) : Closed segs := by
  rcases closed_cons h with rfl | hclosed
  · rcases h with ⟨pat, hlast⟩
    cases hlast
  · exact hclosed

/-- What can be shown behind a base goes on from there. -/
theorem add_of_canShow {t : Tree} {segs : List Segment} {base : Base} {x : Str}
    (h : CanShow t segs base x) :
    (segs = [] → x = base.1) ∧ (Closed segs → ∃ rest, x = (base.add rest).1) := by
  have hmore : ∀ {segs : List Segment} {base : Base} {name y : Str},
      (segs = [] → y = (base.add name).1) ∧
        (Closed segs → ∃ rest, y = ((base.add name).add rest).1) →
      segs = [] ∨ Closed segs → ∃ rest, y = (base.add rest).1 := by
    rintro segs base name y ⟨hlast, hnext⟩ (hnil | hclosed)
    · exact ⟨name, hlast hnil⟩
    · rcases hnext hclosed with ⟨rest, rfl⟩
      refine ⟨name ++ '/' :: rest, ?_⟩
      rw [← add_append]
      rfl
  induction h with
  | nil base => exact ⟨fun _ => rfl, fun hclosed => by simp [Closed] at hclosed⟩
  | here _ ih => exact ⟨nofun, fun hclosed => ih.2 (closed_of_recursive hclosed)⟩
  | deeper _ hne _ _ _ ih =>
      refine ⟨nofun, fun hclosed => ?_⟩
      rw [foldl_add_eq hne] at ih
      exact hmore ih (Or.inr (closed_of_recursive hclosed))
  | wild _ _ _ _ ih =>
      exact ⟨nofun, fun hclosed => hmore ih (closed_cons hclosed)⟩
  | literal _ _ ih =>
      exact ⟨nofun, fun hclosed => hmore ih (closed_cons hclosed)⟩

theorem mem_expand_of_canShow {t : Tree} {segs : List Segment} {base : Base} {x : Str} {loc : Loc}
    (hstat : t.stat x = some loc) (h : CanShow t segs base x) :
    base.Ready → (segs = [] ∨ Closed segs) → x ∈ expand t segs base := by
  induction h with
  | nil base =>
      intro _ _
      simp [expand, lexist?, hstat]
  | @here segs base x hshow ih =>
      intro hready hclosed
      have hrest : Closed segs := closed_of_recursive (hclosed.resolve_left (by simp))
      rcases (add_of_canShow hshow).2 hrest with ⟨rest, rfl⟩
      rcases dir?_of_stat_add hready hstat with ⟨dir, hdir, _⟩
      rw [expand, hdir]
      exact List.mem_append.2 (Or.inl (ih hstat hready (Or.inr hrest)))
  | @deeper segs base x dir rel hplace hne hnames hlinks hshow ih =>
      intro hready hclosed
      have hrest : Closed segs := closed_of_recursive (hclosed.resolve_left (by simp))
      have hbelow := hready.foldl rel
      rcases (add_of_canShow hshow).2 hrest with ⟨rest, rfl⟩
      have hmem := ih hstat hbelow (Or.inr hrest)
      -- the directory that `**/` stands for is there, and so is the one it starts from
      rcases dir?_of_stat_add hbelow hstat with ⟨last, hlast, _⟩
      rw [foldl_add_eq hne] at hlast
      have hstat' := stat_of_dir? (hready.add _) hlast
      rcases dir?_of_stat_add hready hstat' with ⟨first, hfirst, hwalk⟩
      have hsame : first = dir :=
        Option.some.inj ((place?_of_dir? hfirst).1.symm.trans hplace)
      have hvalid : ∀ name ∈ rel, ValidName name := fun name hname => (hnames name hname).1
      rw [names_intercalate, flatMap_names hvalid, hsame] at hwalk
      have hend := walk_unlinked hlinks hwalk
      rw [filter_text hvalid] at hend
      have hsub : rel ∈ subdirs t dir := by
        refine mem_subdirs.2 ⟨hne, ?_, fun name hname => (hnames name hname).2⟩
        rw [← hend]
        exact (place?_of_dir? hlast).2
      rw [expand, hfirst, hsame]
      exact List.mem_append.2 (Or.inr (List.mem_flatMap.2 ⟨rel, hsub, hmem⟩))
  | @wild segs base x pat name hmagic hname hmatch hshow ih =>
      intro hready hclosed
      have hrest := closed_cons (hclosed.resolve_left (by simp))
      have hone : names name = [name] := names_of_no_sep hname.1 hname.2.1
      -- the path goes on with this name
      have hmore : ∃ rest todo, x = (base.add rest).1 ∧ names rest = name :: todo := by
        rcases hrest with hnil | hclosed
        · exact ⟨name, [], (add_of_canShow hshow).1 hnil, hone⟩
        · rcases (add_of_canShow hshow).2 hclosed with ⟨rest, rfl⟩
          refine ⟨name ++ '/' :: rest, names rest, ?_, by rw [names_append_sep, hone]; rfl⟩
          rw [← add_append]
          rfl
      rcases hmore with ⟨rest, todo, rfl, hnames⟩
      rcases dir?_of_stat_add hready hstat with ⟨dir, hdir, hwalk⟩
      rw [hnames, walk_cons] at hwalk
      rcases Option.bind_eq_some_iff.1 hwalk with ⟨next, hnext, _⟩
      have hentry : name ∈ entries t dir := mem_entries.2 (isSome_of_step hname hnext)
      rw [expand, if_pos hmagic, hdir]
      refine List.mem_flatMap.2 ⟨name, List.mem_filter.2 ⟨hentry, hmatch⟩, ?_⟩
      exact ih hstat (hready.add name) hrest
  | @literal segs base x pat hmagic hshow ih =>
      intro hready hclosed
      rw [expand]
      simp only [hmagic, Bool.false_eq_true, if_false]
      exact ih hstat (hready.add _) (closed_cons (hclosed.resolve_left (by simp)))

/-! ## Whole patterns -/

theorem closed_classify {names : List Str} (hne : names ≠ []) : Closed (classify names) := by
  fun_induction classify names with
  | case1 => exact absurd rfl hne
  | case2 last => exact ⟨last, rfl⟩
  | case3 rest hrest segs hsegs ih =>
      have hclosed := ih hrest
      rwa [hsegs] at hclosed
  | case4 rest hrest _ ih =>
      rcases ih hrest with ⟨pat, hlast⟩
      refine ⟨pat, ?_⟩
      rwa [List.getLast?_cons_of_ne_nil]
      rintro hnil
      simp [hnil] at hlast
  | case5 s rest hrest hs ih =>
      rcases ih hrest with ⟨pat, hlast⟩
      refine ⟨pat, ?_⟩
      rwa [List.getLast?_cons_of_ne_nil]
      rintro hnil
      simp [hnil] at hlast

theorem closed_segments (pat : Str) : Closed (segments pat).2 := by
  unfold segments
  split
  · exact closed_classify (splitPattern_ne_nil _ _)
  · exact closed_classify (splitPattern_ne_nil _ _)

theorem head?_of_mem_expandBraces {p : Str} {c : Char} (hc : c ≠ '{' ∧ c ≠ '\\') :
    ∀ {fuel : Nat} {pat : Str}, pat.head? = some c → p ∈ expandBraces fuel pat →
      p.head? = some c := by
  intro fuel
  induction fuel with
  | zero =>
      intro pat hhead h
      rw [List.mem_singleton.1 h, hhead]
  | succ fuel ih =>
      intro pat hhead h
      rw [expandBraces] at h
      split at h
      · rw [List.mem_singleton.1 h, hhead]
      · next front rest hsplit =>
          split at h
          · rw [List.mem_singleton.1 h, hhead]
          · next alts back _ =>
              rcases List.mem_flatMap.1 h with ⟨alt, _, h⟩
              -- the character is no brace, so it stands in front of the first one
              have hfront : front.head? = some c := by
                cases pat with
                | nil => cases hhead
                | cons first pat =>
                    cases hhead
                    have hcons : splitBrace (c :: pat) =
                        (splitBrace pat).map fun r => (c :: r.1, r.2) := by
                      rw [splitBrace]
                      · exact hc.1
                      · exact fun _ _ hslash => absurd hslash hc.2
                    rw [hcons] at hsplit
                    rcases Option.map_eq_some_iff.1 hsplit with ⟨r, _, hr⟩
                    cases hr
                    rfl
              refine ih ?_ h
              rw [List.append_assoc, List.head?_append, hfront]
              rfl

end Glob

/-- The paths that `Dir.glob` can show. -/
def Dir.CanShow (t : Tree) (pat x : Str) : Prop :=
  ∃ p ∈ Glob.expandBraces pat.length pat,
    Glob.CanShow t (Glob.segments p).2 ((Glob.segments p).1, false) x

namespace Dir

open Ruby.Glob Ruby.Tree

theorem canShow_of_mem_glob {t : Tree} {pat x : Str} (h : x ∈ Dir.glob t pat) : CanShow t pat x := by
  rcases List.mem_flatMap.1 h with ⟨p, hp, hx⟩
  exact ⟨p, hp, canShow_of_mem_expand hx⟩

/-- Of the paths that lead somewhere an absolute pattern shows those it can show. -/
theorem mem_glob_of_canShow {t : Tree} {pat x : Str} {loc : Loc} (hpat : pat.head? = some '/')
    (hstat : t.stat x = some loc) (h : CanShow t pat x) : x ∈ Dir.glob t pat := by
  rcases h with ⟨p, hp, hshow⟩
  refine List.mem_flatMap.2 ⟨p, hp, ?_⟩
  have hhead := head?_of_mem_expandBraces (by decide) hpat hp
  have hroot : (segments p).1 = ['/'] := by
    cases p with
    | nil => cases hhead
    | cons c p =>
        cases hhead
        rfl
  have hready : Base.Ready ((segments p).1, false) := by simp [Base.Ready, hroot]
  exact mem_expand_of_canShow hstat hshow hready (Or.inr (closed_segments p))

/-- The pattern of the working directory is one name, `.`, and then as for any base. -/
theorem mem_glob_dot {t : Tree} {x : Str} {loc : Loc} (hstat : t.stat x = some loc)
    (h : CanShow t "./**/*".toList x) : x ∈ Dir.glob t "./**/*".toList := by
  have hexpand : expandBraces "./**/*".toList.length "./**/*".toList = ["./**/*".toList] := by decide
  have hsegments : segments "./**/*".toList =
      ([], [.name ['.'], .recursive, .name ['*']]) := by decide
  have hready : Base.Ready (['.'], true) := by simp [Base.Ready]
  rw [Dir.glob, hexpand, List.flatMap_singleton, hsegments]
  rcases h with ⟨p, hp, hshow⟩
  rw [hexpand, List.mem_singleton] at hp
  rw [hp, hsegments] at hshow
  cases hshow with
  | wild hmagic => cases hmagic
  | literal _ hshow =>
      have hmem : x ∈ expand t [.recursive, .name ['*']] (['.'], true) :=
        mem_expand_of_canShow hstat hshow hready (Or.inr ⟨['*'], rfl⟩)
      exact hmem

/-- A path that leads somewhere is shown below the working directory or an absolute path if it can be
shown there. -/
theorem mem_glob_iff {t : Tree} {path x : Str} {loc : Loc}
    (hpath : path = ['.'] ∨ File.isAbsolute path = true) (hstat : t.stat x = some loc) :
    x ∈ Dir.glob t (File.join [path, "**".toList, "*".toList]) ↔
      CanShow t (File.join [path, "**".toList, "*".toList]) x := by
  refine ⟨canShow_of_mem_glob, ?_⟩
  rcases hpath with rfl | hroot
  · exact mem_glob_dot hstat
  · have hhead : path.head? = some '/' := by simpa [File.isAbsolute] using hroot
    have hne : path ≠ [] := by
      rintro rfl
      cases hhead
    refine mem_glob_of_canShow ?_ hstat
    rw [join_everything, everything]
    exact (stem_append_sep hne _).trans hhead

theorem canShow_congr {t u : Tree} (h : SameLinks t u) {pat x : Str} :
    CanShow t pat x ↔ CanShow u pat x := by
  constructor
  · rintro ⟨p, hp, hshow⟩
    exact ⟨p, hp, canShow_of_sameLinks h hshow⟩
  · rintro ⟨p, hp, hshow⟩
    exact ⟨p, hp, canShow_of_sameLinks h.symm hshow⟩

end Dir

end Ruby
