import Yikes.Ruby.Listing

/-!
# Loops — where a pattern can go besides its path

`Matches` relates the names of a pattern to the names it can match, and `Matches.cases` says that
these are fewer characters, or just the names of the pattern, or that some other names match too.

In a tree of `Looping` links every path that is made of the names of its links leads to the root,
where the only file is, and whatever names a pattern matches lead it there (`Looping.mem_expand`).
-/

namespace Ruby

open Ruby.Tree

namespace Glob

/-! ## Names a pattern can match -/

/-- One name for each name of a pattern, but none for `**`: an entry for a name with wildcards, and
for any other what it stands for. -/
inductive Matches (entries : List Str) : List Str → List Str → Prop
  | nil : Matches entries [] []
  | recursive {pats names : List Str} : Matches entries pats names →
      Matches entries (['*', '*'] :: pats) names
  | wild {pat name : Str} {pats names : List Str} : pat ≠ ['*', '*'] → hasMagic pat = true →
      name ∈ entries → fnmatch pat name = true → Matches entries pats names →
      Matches entries (pat :: pats) (name :: names)
  | plain {pat : Str} {pats names : List Str} : hasMagic pat = false → Matches entries pats names →
      Matches entries (pat :: pats) (unescape pat :: names)

namespace Matches

theorem mono {entries entries' pats names : List Str} (h : Matches entries pats names)
    (hsub : ∀ name ∈ names, name ∈ entries → name ∈ entries') : Matches entries' pats names := by
  induction h with
  | nil => exact nil
  | recursive _ ih => exact recursive (ih hsub)
  | wild hne hmagic hmem hmatch _ ih =>
      exact wild hne hmagic (hsub _ (by simp) hmem) hmatch
        (ih fun name hname => hsub name (by simp [hname]))
  | plain hmagic _ ih => exact plain hmagic (ih fun name hname => hsub name (by simp [hname]))

/-- Characters, with a separator for each name. -/
def weight (names : List Str) : Nat :=
  (names.flatMap fun name => '/' :: name).length

@[simp] theorem weight_nil : weight [] = 0 := rfl

@[simp] theorem weight_cons (name : Str) (names : List Str) :
    weight (name :: names) = name.length + 1 + weight names := by
  rw [weight, List.flatMap_cons, List.length_append]
  rfl

@[simp] theorem weight_append (names names' : List Str) :
    weight (names ++ names') = weight names + weight names' := by
  rw [weight, List.flatMap_append, List.length_append]
  rfl

theorem length_intercalate {names : List Str} (hne : names ≠ []) :
    (['/'].intercalate names).length + 1 = weight names := by
  exact congrArg List.length (sep_intercalate hne)

/-- The weight of the names says how long a path is. -/
theorem length_of_names (root v : Str) (names : List Str) :
    (root ++ ['/'].intercalate (names ++ [v])).length = root.length + weight names + v.length := by
  have hlen := @length_intercalate (names ++ [v]) (by simp)
  simp only [weight_append, weight_cons, weight_nil] at hlen
  rw [List.length_append]
  omega

/-- The names a pattern matches are shorter than its own, or they are its own and literal, or one of
them can be another. -/
theorem cases {entries pats names : List Str} (hentries : ∀ name ∈ entries, '/' ∉ name)
    (h : Matches entries pats names) :
    weight names < weight pats ∨ names = pats ∧ (∀ pat ∈ pats, Literal pat) ∨
      ∃ front name d back, names = front ++ name :: back ∧ name ∈ entries ∧ Decoy name d ∧
        Matches (d :: entries) pats (front ++ d :: back) := by
  have hmore : ∀ {pats names : List Str} (d : Str), Matches entries pats names →
      Matches (d :: entries) pats names := by
    intro pats names d hm
    exact hm.mono fun name _ hmem => List.mem_cons_of_mem _ hmem
  induction h with
  | nil => exact Or.inr (Or.inl ⟨rfl, by simp⟩)
  | recursive _ ih =>
      rcases ih with hlt | ⟨rfl, _⟩ | ⟨front, name, d, back, hnames, hmem, hd, hother⟩
      · left
        simp only [weight_cons] at hlt ⊢
        omega
      · left
        simp
      · exact Or.inr (Or.inr ⟨front, name, d, back, hnames, hmem, hd, recursive hother⟩)
  | @wild pat name pats names hne hmagic hmem hmatch hrest ih =>
      -- the wildcard took less than it stands for, or another name would do as well
      rcases fnmatch_cases (hentries name hmem) hmatch with hshort | ⟨_, hliteral⟩ | ⟨d, hd, hother⟩
      · rcases ih with hlt | ⟨rfl, _⟩ | ⟨front, x, d, back, rfl, hx, hd, hother⟩
        · left
          simp only [weight_cons] at hlt ⊢
          omega
        · left
          simp only [weight_cons]
          omega
        · refine Or.inr (Or.inr ⟨name :: front, x, d, back, rfl, hx, hd, ?_⟩)
          exact wild hne hmagic (List.mem_cons_of_mem _ hmem) hmatch hother
      · exact absurd hliteral.1 (by simp [hmagic])
      · exact Or.inr (Or.inr ⟨[], name, d, names, rfl, hmem, hd,
          wild hne hmagic (by simp) hother (hmore d hrest)⟩)
  | @plain pat pats names hmagic hrest ih =>
      rcases ih with hlt | ⟨rfl, hall⟩ | ⟨front, x, d, back, rfl, hx, hd, hother⟩
      · left
        -- a backslash that is dropped makes the name shorter
        rcases unescape_cases pat with hsame | hshort
        · rw [hsame]
          simpa using hlt
        · simp only [weight_cons] at hlt ⊢
          omega
      · rcases unescape_cases pat with hsame | hshort
        · right
          left
          refine ⟨by rw [hsame], ?_⟩
          intro x hx
          rcases List.mem_cons.1 hx with rfl | hx
          · exact ⟨hmagic, hsame⟩
          · exact hall x hx
        · left
          simpa using hshort
      · exact Or.inr (Or.inr ⟨unescape pat :: front, x, d, back, rfl, hx, hd, plain hmagic hother⟩)

end Matches

theorem intercalate_concat {names : List Str} (hne : names ≠ []) (v : Str) :
    ['/'].intercalate (names ++ [v]) = ['/'].intercalate names ++ '/' :: v := by
  have h := @sep_intercalate (names ++ [v]) (by simp)
  rw [List.flatMap_append, ← sep_intercalate hne] at h
  simpa using h

theorem intercalate_inj {before after : List Str} {name d : Str}
    (h : ['/'].intercalate (before ++ name :: after) = ['/'].intercalate (before ++ d :: after)) :
    name = d := by
  induction before with
  | nil =>
      by_cases hnil : after = []
      · simpa [hnil] using h
      · rw [List.nil_append, List.nil_append, List.intercalate_cons_of_ne_nil hnil,
          List.intercalate_cons_of_ne_nil hnil, List.append_assoc, List.append_assoc] at h
        exact List.append_cancel_right h
  | cons first before ih =>
      rw [List.cons_append, List.cons_append, List.intercalate_cons_of_ne_nil (by simp),
        List.intercalate_cons_of_ne_nil (by simp)] at h
      exact ih (List.append_cancel_left h)

theorem Decoy.validName {name d : Str} (h : Decoy name d) : ValidName d := by
  rcases h.notDots with ⟨x, hx, hne⟩
  refine ⟨List.ne_nil_of_mem hx, h.noSep, ?_, ?_⟩
  · rintro rfl
    exact hne (by simpa using hx)
  · rintro rfl
    exact hne (by simpa using hx)

/-! ## Where a pattern goes in a tree without subdirectories -/

theorem mem_expand_recursive {t : Tree} (hflat : ∀ dir, subdirs t dir = []) {rest : List Str}
    (hrest : rest ≠ []) {base : Base} {x : Str} :
    x ∈ expand t (classify (['*', '*'] :: rest)) base ↔
      (base.dir? t).isSome = true ∧ x ∈ expand t (classify rest) base := by
  have hone : ∀ segs : List Segment, x ∈ expand t (.recursive :: segs) base ↔
      (base.dir? t).isSome = true ∧ x ∈ expand t segs base := by
    intro segs
    rw [expand]
    cases hdir : base.dir? t with
    | none => simp
    | some dir => simp [hflat]
  rw [classify]
  · rw [if_pos rfl]
    split
    -- a repeated `**` is one, and that one stays where it is as well
    · next segs hsegs =>
        rw [hsegs, hone]
        simp
    · exact hone _
  · exact hrest

theorem mem_expand_wild {t : Tree} {pat : Str} (hmagic : hasMagic pat = true) {segs : List Segment}
    {base : Base} {x : Str} :
    x ∈ expand t (.name pat :: segs) base ↔
      ∃ dir, base.dir? t = some dir ∧
        ∃ name ∈ entries t dir, fnmatch pat name = true ∧ x ∈ expand t segs (base.add name) := by
  rw [expand, if_pos hmagic]
  cases base.dir? t with
  | none => simp
  | some dir => simp [and_assoc]

theorem expand_plain (t : Tree) {pat : Str} (hmagic : hasMagic pat = false) (segs : List Segment)
    (base : Base) :
    expand t (.name pat :: segs) base = expand t segs (base.add (unescape pat)) := by
  rw [expand, hmagic]
  rfl

theorem mem_expand_last {t : Tree} {base : Base} {x : Str} :
    x ∈ expand t [.name ['*']] base ↔
      ∃ dir, base.dir? t = some dir ∧ ∃ name ∈ entries t dir, name.head? ≠ some '.' ∧
        x = (base.add name).1 ∧ lexist? t x = true := by
  rw [mem_expand_wild rfl]
  simp only [fnmatch_star, expand]
  refine exists_congr fun dir => and_congr_right fun _ => exists_congr fun name =>
    and_congr_right fun _ => and_congr_right fun _ => ?_
  by_cases hthere : lexist? t (base.add name).1 = true
  · rw [if_pos hthere, List.mem_singleton]
    constructor
    · rintro rfl
      exact ⟨rfl, hthere⟩
    · exact And.left
  · rw [if_neg hthere]
    constructor
    · intro hmem
      cases hmem
    · rintro ⟨rfl, hx⟩
      exact absurd hx hthere

/-- What a pattern finds is made of names it matches and one last entry. -/
theorem matches_of_mem_expand {t : Tree} (hflat : ∀ dir, subdirs t dir = []) {all : List Str}
    (hall : ∀ dir name, name ∈ entries t dir → name ∈ all) {pats : List Str} :
    ∀ {base : Base} {x : Str}, x ∈ expand t (classify (pats ++ [['*', '*'], ['*']])) base →
      ∃ names name, Matches all pats names ∧ name ∈ all ∧
        x = ((names ++ [name]).foldl Base.add base).1 := by
  induction pats with
  | nil =>
      intro base x hx
      have hlast := ((mem_expand_recursive hflat (by simp)).1 hx).2
      rcases mem_expand_last.1 hlast with ⟨dir, _, name, hname, _, rfl, _⟩
      exact ⟨[], name, .nil, hall dir name hname, rfl⟩
  | cons pat pats ih =>
      intro base x hx
      by_cases hrec : pat = ['*', '*']
      · subst hrec
        rcases ih ((mem_expand_recursive hflat (by simp)).1 hx).2 with ⟨names, name, hm, hrest⟩
        exact ⟨names, name, .recursive hm, hrest⟩
      · rw [List.cons_append, classify_cons hrec (by simp)] at hx
        cases hmagic : hasMagic pat with
        | true =>
            rcases (mem_expand_wild hmagic).1 hx with ⟨dir, _, first, hfirst, hmatch, hx'⟩
            rcases ih hx' with ⟨names, name, hm, hname, rfl⟩
            exact ⟨first :: names, name, .wild hrec hmagic (hall dir first hfirst) hmatch hm, hname,
              rfl⟩
        | false =>
            rw [expand_plain t hmagic] at hx
            rcases ih hx with ⟨names, name, hm, hname, rfl⟩
            exact ⟨unescape pat :: names, name, .plain hmagic hm, hname, rfl⟩

/-- The other way round, where the names on the way lead to directories with all the entries. -/
theorem mem_expand_of_matches {t : Tree} (hflat : ∀ dir, subdirs t dir = []) {known : List Str}
    {pats names : List Str} (hm : Matches known pats names) {last : Str}
    (hdot : last.head? ≠ some '.') :
    ∀ {base : Base},
      (∀ front, front <+: names → ∃ dir, (front.foldl Base.add base).dir? t = some dir ∧
        ∀ name ∈ known, name ∈ entries t dir) →
      (∃ dir, (names.foldl Base.add base).dir? t = some dir ∧ last ∈ entries t dir) →
      lexist? t ((names ++ [last]).foldl Base.add base).1 = true →
      ((names ++ [last]).foldl Base.add base).1 ∈
        expand t (classify (pats ++ [['*', '*'], ['*']])) base := by
  induction hm with
  | nil =>
      intro base _ hlast hthere
      rcases hlast with ⟨dir, hdir, hmem⟩
      -- `**/` goes nowhere here, since the links are not followed
      refine (mem_expand_recursive hflat (by simp)).2
        ⟨by simpa using Option.isSome_of_eq_some hdir, ?_⟩
      exact mem_expand_last.2 ⟨dir, hdir, last, hmem, hdot, rfl, hthere⟩
  | recursive _ ih =>
      intro base hfronts hlast hthere
      rcases hfronts [] List.nil_prefix with ⟨dir, hdir, _⟩
      exact (mem_expand_recursive hflat (by simp)).2
        ⟨Option.isSome_of_eq_some hdir, ih hfronts hlast hthere⟩
  | @wild pat name pats names hne hmagic hmem hmatch _ ih =>
      intro base hfronts hlast hthere
      rcases hfronts [] List.nil_prefix with ⟨dir, hdir, hall⟩
      rw [List.cons_append (a := pat), classify_cons hne (by simp)]
      refine (mem_expand_wild hmagic).2 ⟨dir, hdir, name, hall name hmem, hmatch, ?_⟩
      exact ih (fun front hfront => hfronts (name :: front) (by simpa using hfront)) hlast hthere
  | @plain pat pats names hmagic _ ih =>
      intro base hfronts hlast hthere
      have hne : pat ≠ ['*', '*'] := by
        rintro rfl
        simp [hasMagic] at hmagic
      rw [List.cons_append (a := pat), classify_cons hne (by simp), expand_plain t hmagic]
      exact ih (fun front hfront => hfronts (unescape pat :: front) (by simpa using hfront)) hlast
        hthere

theorem validName_of_mem_entries {t : Tree} {dir : Loc} {name : Str} (h : name ∈ entries t dir) :
    ValidName name := by
  rcases Option.isSome_iff_exists.1 (mem_entries.1 h) with ⟨node, hnode⟩
  exact validName_of_node? hnode name (by simp)

/-- A pattern with a name that no entry can match finds nothing. -/
theorem expand_eq_nil {t : Tree} {front tail : Str} (htail : ']' ∉ tail) {segs : List Segment}
    (hmem : .name (front ++ '/' :: '*' :: tail) ∈ segs) (base : Base) :
    expand t segs base = [] := by
  induction segs generalizing base with
  | nil => cases hmem
  | cons seg segs ih =>
      cases seg with
      | recursive =>
          have hrest := ih (by simpa using hmem)
          rw [expand]
          cases base.dir? t with
          | none => rfl
          | some dir => simp [hrest]
      | name pat =>
          rcases List.mem_cons.1 hmem with hpat | hmem
          · cases hpat
            rw [expand, if_pos (hasMagic_sep front tail)]
            cases base.dir? t with
            | none => rfl
            | some dir =>
                -- no entry has a separator in its name
                have hnone :
                    (entries t dir).filter (fnmatch (front ++ '/' :: '*' :: tail)) = [] := by
                  rw [List.filter_eq_nil_iff]
                  intro name hname
                  have hsep := (validName_of_mem_entries hname).2.1
                  simp [@fnmatch_sep front ('*' :: tail) name (by simpa using htail) hsep]
                simp [hnone]
          · have hrest := ih hmem
            cases hmagic : hasMagic pat with
            | false => rw [expand_plain t hmagic, hrest]
            | true =>
                rw [expand, if_pos hmagic]
                cases base.dir? t with
                | none => rfl
                | some dir => simp [hrest]

theorem of_mem_intercalate {c : Char} {names : List Str} (h : c ∈ ['/'].intercalate names) :
    c = '/' ∨ ∃ name ∈ names, c ∈ name := by
  induction names with
  | nil => cases h
  | cons name names ih =>
      by_cases hnil : names = []
      · exact Or.inr ⟨name, by simp, by simpa [hnil] using h⟩
      · rw [List.intercalate_cons_of_ne_nil hnil, List.append_assoc, List.mem_append,
          List.singleton_append, List.mem_cons] at h
        rcases h with h | h | h
        · exact Or.inr ⟨name, by simp, h⟩
        · exact Or.inl h
        · rcases ih h with hsep | ⟨x, hx, hc⟩
          · exact Or.inl hsep
          · exact Or.inr ⟨x, by simp [hx], hc⟩

/-- A path of dots and separators is read as it is written. -/
theorem plain_of_dots {path : Str} (h : ∀ name ∈ File.names path, name = ['.']) : Plain path := by
  have hchars : ∀ c ∈ path, c = '/' ∨ c = '.' := by
    intro c hc
    have hparts : ['/'].intercalate (path.splitOn '/') = path := List.intercalate_splitOn '/'
    rw [← hparts] at hc
    rcases of_mem_intercalate hc with hsep | ⟨name, hname, hc'⟩
    · exact Or.inl hsep
    · have hmem : name ∈ File.names path := by
        have hne : name ≠ [] := List.ne_nil_of_mem hc'
        simpa [File.names, hne] using hname
      rw [h name hmem] at hc'
      exact Or.inr (List.mem_singleton.1 hc')
  refine ⟨?_, ?_⟩
  · intro c hc
    rcases hchars c hc with rfl | rfl
    · decide
    · decide
  · have hnone : splitBrace path = none := by
      apply splitBrace_eq_none
      intro hc
      rcases hchars _ hc with h' | h'
      · cases h'
      · cases h'
    simp [closedBrace, hnone]

end Glob

/-! ## Links to the root -/

theorem names_root_intercalate {root : Str} (hroot : root = [] ∨ root = ['/']) (names : List Str) :
    File.names (root ++ ['/'].intercalate names) = names.flatMap File.names := by
  have hseps := File.names_seps_append (['/'].intercalate names) (s := root)
    (by rcases hroot with rfl | rfl <;> simp)
  rw [hseps, names_intercalate]

namespace Tree

/-- `chdir(2)` -/
def chdir (t : Tree) (dir : Loc) : Tree :=
  if h : t.isDir dir = true then { t with cwd := dir, cwd_isDir := lookup_dir_of_isDir h } else t

theorem node?_chdir (t : Tree) (dir loc : Loc) : (t.chdir dir).node? loc = t.node? loc := by
  unfold chdir
  split
  · rfl
  · rfl

theorem node?_put {t : Tree} {dir : Loc} {name : Str} {node : Node} (hdir : t.isDir dir = true)
    (hname : ValidName name) (hfree : t.isDir (dir ++ [name]) = false) (loc : Loc) :
    (t.put dir name node).node? loc =
      if loc = dir ++ [name] then some node else t.node? loc := by
  by_cases hloc : loc = dir ++ [name]
  · rw [if_pos hloc, hloc, node?_put_self hdir hname hfree]
  · rw [if_neg hloc, node?_put_ne hloc]

end Tree

/-- The root holds the file `v` and the directory `c`; the root and `c` hold links to the root. -/
def loops (c v : Str) : List Str → Tree
  | [] => (((Tree.empty 1).put [] c (.dir true)).put [] v (.file true)).chdir [c]
  | n :: links => ((loops c v links).put [] n (.link ['/'])).put [c] n (.link ['/'])

structure Looping (t : Tree) (c v : Str) (links : List Str) : Prop where
  cwd : t.cwd = [c]
  dir : ValidName c
  hidden : c.head? = some '.'
  file : ValidName v
  ne : c ≠ v
  link : ∀ n ∈ links, ValidName n ∧ n ≠ c ∧ n ≠ v
  linkDepth : t.linkDepth = 1
  node : ∀ loc, loc ≠ [] → t.node? loc =
    if loc = [c] then some (.dir true)
    else if loc = [v] then some (.file true)
    else if ∃ n ∈ links, loc = [n] ∨ loc = [c, n] then some (.link ['/'])
    else none

theorem looping_loops {c v : Str} (hc : ValidName c) (hhidden : c.head? = some '.')
    (hv : ValidName v) (hne : c ≠ v) {links : List Str}
    (hlinks : ∀ n ∈ links, ValidName n ∧ n ≠ c ∧ n ≠ v) :
    Looping (loops c v links) c v links := by
  induction links with
  | nil =>
      have hempty : ∀ loc, loc ≠ [] → (Tree.empty 1).node? loc = none := by
        intro loc hloc
        simp [Tree.node?, hloc, Tree.empty]
      have hfirst : ∀ loc, ((Tree.empty 1).put [] c (.dir true)).node? loc =
          if loc = [c] then some (.dir true) else (Tree.empty 1).node? loc :=
        node?_put (isDir_root _) hc (by simp [Tree.isDir, hempty])
      have hboth : ∀ loc, (((Tree.empty 1).put [] c (.dir true)).put [] v (.file true)).node? loc =
          if loc = [v] then some (.file true)
          else if loc = [c] then some (.dir true) else (Tree.empty 1).node? loc := by
        intro loc
        rw [← hfirst]
        exact node?_put (isDir_root _) hv (by simp [Tree.isDir, hfirst, Ne.symm hne, hempty]) loc
      have hdir : (((Tree.empty 1).put [] c (.dir true)).put [] v (.file true)).isDir [c] = true :=
        isDir_iff.2 ⟨true, by simp [hboth, hne]⟩
      refine ⟨by simp [loops, Tree.chdir, hdir], hc, hhidden, hv, hne, hlinks, ?_, ?_⟩
      · simp only [loops, Tree.chdir, hdir, dite_true, put_linkDepth]
        rfl
      · intro loc hloc
        rw [loops, node?_chdir, hboth, hempty loc hloc]
        by_cases hlocc : loc = [c]
        · simp [hlocc, hne]
        · simp [hlocc]
  | cons n links ih =>
      have hold := ih fun x hx => hlinks x (by simp [hx])
      rcases hlinks n (by simp) with ⟨hn, hnc, hnv⟩
      -- a name may be listed twice, so a link may take the place of one, never that of a directory
      have hlink : ∀ loc : Loc, loc = [n] ∨ loc = [c, n] → (loops c v links).isDir loc = false := by
        intro loc hloc
        have hnone : (loops c v links).node? loc = none ∨
            (loops c v links).node? loc = some (.link ['/']) := by
          rcases hloc with rfl | rfl
          · by_cases hmem : n ∈ links
            · simp [hold.node, hnc, hnv, hmem]
            · simp [hold.node, hnc, hnv, hmem]
          · by_cases hmem : n ∈ links
            · simp [hold.node, hmem]
            · simp [hold.node, hmem]
        rcases hnone with hnode | hnode
        · simp [Tree.isDir, hnode]
        · simp [Tree.isDir, hnode, Node.isDir]
      have hfirst : ∀ loc, ((loops c v links).put [] n (.link ['/'])).node? loc =
          if loc = [n] then some (.link ['/']) else (loops c v links).node? loc :=
        node?_put (isDir_root _) hn (hlink [n] (Or.inl rfl))
      have hcdir : ((loops c v links).put [] n (.link ['/'])).isDir [c] = true :=
        isDir_iff.2 ⟨true, by simp [hfirst, Ne.symm hnc, hold.node]⟩
      have hfree : ((loops c v links).put [] n (.link ['/'])).isDir ([c] ++ [n]) = false := by
        have hkeep := hfirst [c, n]
        rw [if_neg (by simp)] at hkeep
        have hnot := hlink [c, n] (Or.inr rfl)
        simpa only [Tree.isDir, List.cons_append, List.nil_append, hkeep] using hnot
      have hnode : ∀ loc, (loops c v (n :: links)).node? loc =
          if loc = [c, n] then some (.link ['/'])
          else if loc = [n] then some (.link ['/']) else (loops c v links).node? loc := by
        intro loc
        rw [← hfirst]
        exact node?_put hcdir hn hfree loc
      refine ⟨by simp [loops, hold.cwd], hc, hhidden, hv, hne, hlinks,
        by simp [loops, hold.linkDepth], ?_⟩
      intro loc hloc
      rw [hnode, hold.node loc hloc]
      -- the places of `c`, of `v` and of the new links are apart
      by_cases hlocc : loc = [c]
      · simp [hlocc, Ne.symm hnc]
      · by_cases hlocv : loc = [v]
        · simp [hlocv, Ne.symm hnv]
        · by_cases hlocn : loc = [n] ∨ loc = [c, n]
          · rcases hlocn with rfl | rfl
            · simp [hnc, hnv]
            · simp
          · have hnot := not_or.1 hlocn
            simp [hlocc, hlocv, hnot.1, hnot.2]

namespace Looping

variable {t : Tree} {c v : Str} {links : List Str}

/-! ## Where paths lead -/

theorem isDir_iff (hl : Looping t c v links) {loc : Loc} :
    t.isDir loc = true ↔ loc = [] ∨ loc = [c] := by
  constructor
  · intro hdir
    rcases Tree.isDir_iff.1 hdir with ⟨w, hnode⟩
    by_cases hroot : loc = []
    · exact Or.inl hroot
    · right
      rw [hl.node loc hroot] at hnode
      split at hnode
      · assumption
      · split at hnode
        · cases hnode
        · split at hnode
          · cases hnode
          · cases hnode
  · rintro (rfl | rfl)
    · simp
    · exact Tree.isDir_iff.2 ⟨true, by simp [hl.node]⟩

theorem subdirs_eq_nil (hl : Looping t c v links) (dir : Loc) : Glob.subdirs t dir = [] := by
  refine List.eq_nil_iff_forall_not_mem.2 ?_
  intro rel hrel
  rcases Glob.mem_subdirs.1 hrel with ⟨hne, hdir, hnames⟩
  rcases (hl.isDir_iff).1 hdir with hnil | hc
  · exact hne (List.append_eq_nil_iff.1 hnil).2
  · -- only `c` is below the root, and it is hidden
    rcases List.append_eq_singleton_iff.1 hc with ⟨_, hrel'⟩ | ⟨_, hrel'⟩
    · exact hnames c (by simp [hrel']) hl.hidden
    · exact hne hrel'

theorem node?_entry (hl : Looping t c v links) {dir : Loc} (hdir : t.isDir dir = true)
    (name : Str) :
    t.node? (dir ++ [name]) =
      if name ∈ links then some (.link ['/'])
      else if dir = [] ∧ name = c then some (.dir true)
      else if dir = [] ∧ name = v then some (.file true)
      else none := by
  rcases hl.isDir_iff.1 hdir with rfl | rfl
  · rw [List.nil_append, hl.node [name] (by simp)]
    by_cases hmem : name ∈ links
    · have hlink := hl.link name hmem
      simp [hmem, hlink.2.1, hlink.2.2]
    · simp [hmem]
  · rw [hl.node _ (by simp)]
    by_cases hmem : name ∈ links
    · simp [hmem]
    · simp [hmem]

/-- A name that every directory knows. -/
def Known (links : List Str) (name : Str) : Prop :=
  name ∈ links ∨ name = ['.'] ∨ name = ['.', '.']

theorem links_root (hl : Looping t c v links) (cur : Loc) : t.links cur ['/'] = some [] := by
  have hnames : File.components ['/'] = [['.']] := by decide
  simp [Tree.links, hl.linkDepth, Tree.follow, hnames, Tree.origin, File.isAbsolute]

/-- A known name leads to a directory, and all but the dot lead to the root. -/
theorem step_known (hl : Looping t c v links) {dir : Loc} (hdir : t.isDir dir = true) {name : Str}
    (hname : Known links name) :
    t.step t.links dir name = some (if name = ['.'] then dir else []) := by
  by_cases hdot : name = ['.']
  · simp [Tree.step, hdir, hdot]
  · by_cases hup : name = ['.', '.']
    · have hparent : dir.dropLast = [] := by
        rcases hl.isDir_iff.1 hdir with rfl | rfl
        · rfl
        · rfl
      simp [Tree.step, hdir, hup, hparent]
    · have hmem : name ∈ links := by
        rcases hname with hmem | hdot' | hup'
        · exact hmem
        · exact absurd hdot' hdot
        · exact absurd hup' hup
      have hnode := hl.node?_entry hdir name
      rw [if_pos hmem] at hnode
      simp [Tree.step, hdir, hdot, hup, hnode, hl.links_root]

theorem walk_known (hl : Looping t c v links) {names : List Str} (h : ∀ n ∈ names, Known links n) :
    ∀ {dir : Loc}, t.isDir dir = true →
      t.walk t.links dir names = some (if ∀ n ∈ names, n = ['.'] then dir else []) := by
  induction names with
  | nil => simp
  | cons name names ih =>
      intro dir hdir
      have hrest := fun n hn => h n (List.mem_cons_of_mem _ hn)
      rw [Tree.walk_cons, hl.step_known hdir (h name (by simp)), Option.bind_some]
      by_cases hdot : name = ['.']
      · rw [if_pos hdot, ih hrest hdir]
        simp [hdot]
      · rw [if_neg hdot, ih hrest (isDir_root t)]
        simp [hdot]

/-- A path of known names leads to a directory: to the root, unless it is read in `c` and has dots
only. -/
theorem stat_known (hl : Looping t c v links) {path : Str} (hpath : path ≠ [])
    (h : ∀ n ∈ File.names path, Known links n) :
    t.stat path = some (if ∀ n ∈ File.names path, n = ['.'] then origin t.cwd path else []) := by
  have hwalk := hl.walk_known h (isDir_origin t path)
  refine stat_of_walk_names hpath hwalk ?_
  split
  · exact isDir_origin t path
  · exact isDir_root t

theorem validName_of_mem (hl : Looping t c v links) {name : Str} (h : name ∈ c :: v :: links) :
    ValidName name := by
  rcases List.mem_cons.1 h with rfl | h
  · exact hl.dir
  · rcases List.mem_cons.1 h with rfl | h
    · exact hl.file
    · exact (hl.link name h).1

theorem mem_of_mem_entries (hl : Looping t c v links) {dir : Loc} {name : Str}
    (h : name ∈ Glob.entries t dir) : name ∈ c :: v :: links := by
  have hnode := Glob.mem_entries.1 h
  rw [hl.node?_entry (Glob.isDir_of_below hnode)] at hnode
  by_cases hmem : name ∈ links
  · simp [hmem]
  · by_cases hc : dir = [] ∧ name = c
    · simp [hc.2]
    · by_cases hv : dir = [] ∧ name = v
      · simp [hv.2]
      · simp [hmem, hc, hv] at hnode

theorem mem_entries_of_mem (hl : Looping t c v links) {dir : Loc} (hdir : t.isDir dir = true)
    {name : Str} (h : name ∈ links) : name ∈ Glob.entries t dir := by
  rw [Glob.mem_entries, hl.node?_entry hdir, if_pos h]
  rfl

theorem node?_file (hl : Looping t c v links) : t.node? [v] = some (.file true) := by
  have hmem : v ∉ links := fun hmem => (hl.link v hmem).2.2 rfl
  have hentry := hl.node?_entry (isDir_root t) v
  simpa [hmem, Ne.symm hl.ne] using hentry

theorem file_of_node? (hl : Looping t c v links) {loc : Loc} {r : Bool}
    (h : t.node? loc = some (.file r)) : loc = [v] ∧ r = true := by
  rcases List.eq_nil_or_concat' loc with rfl | ⟨dir, name, rfl⟩
  · simp [Tree.node?] at h
  · have hdir := @Glob.isDir_of_below t dir name (by simp [h])
    rw [hl.node?_entry hdir] at h
    by_cases hmem : name ∈ links
    · simp [hmem] at h
    · rw [if_neg hmem] at h
      by_cases hc : dir = [] ∧ name = c
      · rw [if_pos hc] at h
        cases h
      · rw [if_neg hc] at h
        by_cases hv : dir = [] ∧ name = v
        · rw [if_pos hv] at h
          cases h
          exact ⟨by simp [hv], rfl⟩
        · rw [if_neg hv] at h
          cases h

/-- A last name that leads to the file is the name of the file. -/
theorem name_of_stat (hl : Looping t c v links) {path : Str} {front : List Str} {name : Str}
    (hnames : File.names path = front ++ [name]) (hname : name ∈ c :: v :: links)
    (hstat : t.stat path = some [v]) :
    name = v ∧ t.walk t.links (origin t.cwd path) front = some [] := by
  have hwalk := walk_names_of_stat hstat
  rw [hnames, Tree.walk_append] at hwalk
  rcases Option.bind_eq_some_iff.1 hwalk with ⟨dir, hfront, hlast⟩
  rw [Tree.walk_cons] at hlast
  rcases Option.bind_eq_some_iff.1 hlast with ⟨next, hstep, hnext⟩
  have hvalid := hl.validName_of_mem hname
  have hdir := isDir_of_step hstep
  have hloc : next = [v] := by simpa using hnext
  rw [Tree.step, if_pos hdir, if_neg hvalid.2.2.1, if_neg hvalid.2.2.2,
    hl.node?_entry hdir] at hstep
  by_cases hmem : name ∈ links
  · simp [hmem, hl.links_root, hloc] at hstep
  · rw [if_neg hmem] at hstep
    by_cases hc : dir = [] ∧ name = c
    · rw [if_pos hc] at hstep
      simp [hc.1, hc.2, hloc, hl.ne] at hstep
    · rw [if_neg hc] at hstep
      by_cases hv : dir = [] ∧ name = v
      · exact ⟨hv.2, by rw [hfront, hv.1]⟩
      · rw [if_neg hv] at hstep
        cases hstep

/-- A path that is absolute, or has more than dots, does not depend on where it is read. -/
theorem origin_of_known {path : Str} {front : List Str}
    (hroot : File.isAbsolute path = true ∨ ∃ n ∈ front, n ≠ ['.']) :
    (if ∀ n ∈ front, n = ['.'] then origin t.cwd path else []) = [] := by
  split
  · next hall =>
      rcases hroot with habs | ⟨n, hn, hne⟩
      · simp [origin, habs]
      · exact absurd (hall n hn) hne
  · rfl

/-- The file is found behind known names, unless they are dots that stay where the file is not. -/
theorem stat_file (hl : Looping t c v links) {path : Str} {front : List Str}
    (hnames : File.names path = front ++ [v]) (hsep : path.getLast? ≠ some '/')
    (hknown : ∀ n ∈ front, Known links n)
    (hroot : File.isAbsolute path = true ∨ ∃ n ∈ front, n ≠ ['.']) : t.stat path = some [v] := by
  have hpath : path ≠ [] := by
    rintro rfl
    simp at hnames
  have hfront := hl.walk_known hknown (isDir_origin t path)
  rw [origin_of_known hroot] at hfront
  have hstep : t.step t.links [] v = some [v] := by
    rw [Tree.step, if_pos (isDir_root t), if_neg hl.file.2.2.1, if_neg hl.file.2.2.2,
      List.nil_append, hl.node?_file]
  rw [stat_eq_walk hpath, File.components, if_neg hsep, List.append_nil, hnames,
    Tree.walk_append, hfront]
  simp [Tree.walk_cons, hstep]

/-- Whatever a base of known names is, it leads to a directory. -/
theorem dir?_known (hl : Looping t c v links) {base : Glob.Base}
    (h : ∀ n ∈ File.names base.1, Known links n) :
    ∃ dir, base.dir? t = some dir ∧ t.isDir dir = true ∧
      (File.isAbsolute base.1 = true ∨ (∃ n ∈ File.names base.1, n ≠ ['.']) → dir = []) := by
  by_cases hnil : base.1 = []
  · refine ⟨t.cwd, by simp [Glob.Base.dir?, hnil, isDir_cwd], isDir_cwd t, ?_⟩
    simp [hnil, File.isAbsolute]
  · have hstat := hl.stat_known hnil h
    have hdir :
        t.isDir (if ∀ n ∈ File.names base.1, n = ['.'] then origin t.cwd base.1 else []) =
          true := by
      split
      · exact isDir_origin t _
      · exact isDir_root t
    exact ⟨_, by simp [Glob.Base.dir?, hnil, hstat, hdir], hdir, origin_of_known⟩

/-- Names that a pattern matches lead it to the file. -/
theorem mem_expand (hl : Looping t c v links) (hdot : v.head? ≠ some '.') {root : Str}
    (hroot : root = [] ∨ root = ['/']) {pats names : List Str} (hm : Glob.Matches links pats names)
    (hne : names ≠ []) (hknown : ∀ n ∈ names.flatMap File.names, Known links n)
    (hdirs : File.isAbsolute (root ++ ['/'].intercalate names) = true ∨
      ∃ n ∈ names.flatMap File.names, n ≠ ['.']) :
    root ++ ['/'].intercalate names ++ '/' :: v ∈
        Glob.expand t (Glob.classify (pats ++ [['*', '*'], ['*']])) (root, false) ∧
      t.stat (root ++ ['/'].intercalate names ++ '/' :: v) = some [v] := by
  have hbase : names.foldl Glob.Base.add (root, false) = (root ++ ['/'].intercalate names, true) :=
    Glob.foldl_add_root root hne
  have htext : ((names ++ [v]).foldl Glob.Base.add (root, false)).1 =
      root ++ ['/'].intercalate names ++ '/' :: v := by
    rw [List.foldl_append, hbase]
    rfl
  have hnames : File.names (root ++ ['/'].intercalate names ++ '/' :: v) =
      names.flatMap File.names ++ [v] := by
    rw [File.names_append_sep, names_root_intercalate hroot,
      File.names_of_no_sep hl.file.1 hl.file.2.1]
  have hsep : (root ++ ['/'].intercalate names ++ '/' :: v).getLast? ≠ some '/' :=
    File.getLast?_append_name _ hl.file
  have hstat : t.stat (root ++ ['/'].intercalate names ++ '/' :: v) = some [v] := by
    refine hl.stat_file hnames hsep hknown ?_
    rcases hdirs with habs | hsome
    · left
      cases htext' : root ++ ['/'].intercalate names with
      | nil => simp [htext', File.isAbsolute] at habs
      | cons x rest => simpa [htext', File.isAbsolute] using habs
    · exact Or.inr hsome
  -- every front part of the names leads round the loop to a directory with all the entries
  refine ⟨?_, hstat⟩
  have hfront : ∀ front, front <+: names →
      ∀ n ∈ File.names (front.foldl Glob.Base.add (root, false)).1, Known links n := by
    intro front hfront n hn
    apply hknown
    rcases hfront with ⟨back, rfl⟩
    rw [List.flatMap_append]
    by_cases hnil : front = []
    · have hstart : File.names root = [] := by rcases hroot with rfl | rfl <;> decide
      simp [hnil, hstart] at hn
    · rw [Glob.foldl_add_root root hnil, names_root_intercalate hroot] at hn
      exact List.mem_append.2 (Or.inl hn)
  have hmem := @Glob.mem_expand_of_matches t hl.subdirs_eq_nil links pats names hm v hdot
    (root, false) ?_ ?_ ?_
  · rwa [htext] at hmem
  · intro front hpre
    rcases hl.dir?_known (hfront front hpre) with ⟨dir, hdir, hisDir, _⟩
    exact ⟨dir, hdir, fun name hname => hl.mem_entries_of_mem hisDir hname⟩
  · rcases hl.dir?_known (hfront names (List.prefix_refl _)) with ⟨dir, hdir, _, hnil⟩
    rw [hbase, names_root_intercalate hroot] at hnil
    refine ⟨dir, hdir, ?_⟩
    rw [hnil hdirs, Glob.mem_entries, List.nil_append, hl.node?_file]
    rfl
  · rw [htext, Glob.lexist?, hstat]
    rfl

end Looping

theorem exists_looping {links : List Str} (hlinks : ∀ n ∈ links, ValidName n) {ext : Str}
    (hext : '/' ∉ ext) :
    ∃ t c size, Looping t c (List.replicate (size + 1) 'v' ++ ext) links := by
  -- names that are longer than every link
  let size := links.flatten.length
  let c : Str := '.' :: List.replicate (size + 1) 'c'
  let v : Str := List.replicate (size + 1) 'v' ++ ext
  have hlong : ∀ n ∈ links, n.length ≤ size := by
    intro n hn
    exact (List.sublist_flatten_of_mem hn).length_le
  have hc : ValidName c := by
    refine ⟨by simp [c], ?_, by simp [c, List.replicate_succ], by simp [c, List.replicate_succ]⟩
    simp [c, List.mem_replicate]
  have hv : ValidName v := by
    refine ⟨by simp [v], ?_, by simp [v, List.replicate_succ], by simp [v, List.replicate_succ]⟩
    simp [v, List.mem_replicate, hext]
  have hne : c ≠ v := by simp [c, v, List.replicate_succ]
  refine ⟨loops c v links, c, size, looping_loops hc rfl hv hne ?_⟩
  intro n hn
  have hle := hlong n hn
  refine ⟨hlinks n hn, ?_, ?_⟩
  · rintro rfl
    simp only [c, List.length_cons, List.length_replicate] at hle
    omega
  · rintro rfl
    simp only [v, List.length_append, List.length_replicate] at hle
    omega

end Ruby
