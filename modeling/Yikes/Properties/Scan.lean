import Yikes.Lib.Engine
import Yikes.Properties.Subpath
import Yikes.Ruby.Loops

/-!
# Scan — the files of a library that are queued

`enqueue_files_to_encode` splices the path of the library into a glob pattern.  A `Plain` path is
read as it is written, and the scan then adds one item for each video below the library, and no
other (`items_plain`).  For any other path there is a tree in which it does not: links whose names
the pattern matches besides the names of the path lead to the same file (`plain_of_exact`).
-/

namespace Yikes

open Ruby Glob Ruby.Tree

/-! ## What a scan should add -/

/-- What an entry of a directory is, a link read as what it leads to. -/
def reached (t : Tree) (dir : Loc) (name : Str) : Option Node :=
  match t.node? (dir ++ [name]) with
  | some (.link target) => (t.links dir target).bind t.node?
  | other => other

/-- The names `rel` lead from `root` to a readable file with the extension of a video; no name
starts with a dot, and no directory on the way is a link. -/
def Video (t : Tree) (root : Loc) (rel : List Str) : Prop :=
  ∃ dirs name, rel = dirs ++ [name] ∧ (∀ x ∈ rel, x.head? ≠ some '.') ∧
    reached t (root ++ dirs) name = some (.file true) ∧
    (File.extname name).downcase ∈ AllowedFiletypes

/-- `added` has one item for each video below `root`, and no other. -/
def ScannedExactly (t : Tree) (root : Loc) (library target : Str) (added : List EncodingItem) :
    Prop :=
  ∃ rels : List (List Str), rels.Nodup ∧ (∀ rel, rel ∈ rels ↔ Video t root rel) ∧
    added = rels.map fun rel =>
      { library := library, subpath := ['/'].intercalate rel, target := target }

/-- The path that the scan finds the video `rel` under. -/
def pathOf (library : Str) (rel : List Str) : Str :=
  stem library ++ rel.flatMap fun name => '/' :: name

/-- The two tests of the scan. -/
def isVideo (t : Tree) (path : Str) : Bool :=
  AllowedFiletypes.contains (File.extname path).downcase && filelike t path

theorem isVideo_iff {t : Tree} {path : Str} :
    isVideo t path = true ↔
      AllowedFiletypes.contains (File.extname path).downcase = true ∧ filelike t path = true :=
  Bool.and_eq_true_iff

theorem isSome_of_reached {t : Tree} {dir : Loc} {name : Str} {node : Node}
    (h : reached t dir name = some node) : (t.node? (dir ++ [name])).isSome = true := by
  unfold reached at h
  cases hnode : t.node? (dir ++ [name]) with
  | none => simp [hnode] at h
  | some old => rfl

theorem node?_step {t : Tree} {dir : Loc} {name : Str} (hname : ValidName name)
    (hdir : t.isDir dir = true) :
    (t.step t.links dir name).bind t.node? = reached t dir name := by
  simp only [Tree.step, reached, hdir, hname.2.2.1, hname.2.2.2, if_true, if_false]
  cases hnode : t.node? (dir ++ [name]) with
  | none => rfl
  | some node =>
      cases node with
      | link target => rfl
      | _ => simpa using hnode

theorem filelike_below {t : Tree} {library : Str} {root : Loc} {dirs : List Str} {name : Str}
    (hroot : t.stat library = some root)
    (hthere : (t.node? (root ++ (dirs ++ [name]))).isSome = true) :
    filelike t (pathOf library (dirs ++ [name])) = true ↔
      reached t (root ++ dirs) name = some (.file true) := by
  rcases Option.isSome_iff_exists.1 hthere with ⟨node, hnode⟩
  have hnames : ∀ x ∈ dirs ++ [name], ValidName x := by
    intro x hx
    exact Tree.validName_of_node? hnode x (List.mem_append.2 (Or.inr hx))
  rw [← List.append_assoc] at hthere
  have hdir : t.isDir (root ++ dirs) = true := isDir_of_below hthere
  have hstat := Tree.stat_below hroot (by simp) hnames
  rw [Tree.walk_append, Tree.walk_dirs (fun x hx => hnames x (by simp [hx])) hdir] at hstat
  have hstep : t.stat (pathOf library (dirs ++ [name])) =
      t.step t.links (root ++ dirs) name := by
    rw [pathOf, hstat]
    simp [Tree.walk_cons]
  rw [filelike, hstep, node?_step (hnames name (by simp)) hdir]
  cases reached t (root ++ dirs) name with
  | none => simp
  | some node => cases node <;> simp

theorem extname_below {library : Str} {dirs : List Str} {name : Str} (hname : ValidName name) :
    File.extname (pathOf library (dirs ++ [name])) = File.extname name := by
  have hparts : pathOf library (dirs ++ [name]) =
      (stem library ++ dirs.flatMap fun name => '/' :: name) ++ '/' :: name := by simp [pathOf]
  rw [hparts, File.extname_append_sep _ hname]

theorem new_below {library target : Str} {rel : List Str} (hlibrary : library ≠ [])
    (hne : rel ≠ []) (hnames : ∀ name ∈ rel, ValidName name) :
    EncodingItem.new library (pathOf library rel) target =
      { library := library, subpath := ['/'].intercalate rel, target := target } := by
  have hhead : (['/'].intercalate rel).head? ≠ some '/' := by
    cases rel with
    | nil => exact absurd rfl hne
    | cons name rel =>
        have hname := hnames name (by simp)
        have hfirst : (['/'].intercalate (name :: rel)).head? = name.head? := by
          by_cases hnil : rel = []
          · simp [hnil]
          · rw [List.intercalate_cons_of_ne_nil hnil, List.append_assoc,
              List.head?_append_of_ne_nil _ hname.1]
        rw [hfirst]
        intro hhead
        exact hname.2.1 (List.mem_of_head? hhead)
  have hjoin : pathOf library rel = File.join [library, ['/'].intercalate rel] := by
    rw [pathOf, ← sep_intercalate hne, File.join_pair, join2_stem library hhead]
  rw [hjoin, EncodingItem.new, EncodingItem.extractSubpath_join hlibrary hhead]

theorem items_plain {t : Tree} {library : Str} {root : Loc} (hplain : Plain library)
    (hroot : t.stat library = some root) (hdir : t.isDir root = true) (target : Str) :
    ScannedExactly t root library target (Engine.items t library target) := by
  have hlibrary : library ≠ [] := by
    rintro rfl
    simp [Tree.stat, Tree.follow] at hroot
  -- what is a file is there, so dead links in the listing do not matter
  have htest : ∀ x, isVideo t x = true → lexist? t x = true := by
    intro x hx
    have hfile : filelike t x = true := (isVideo_iff.1 hx).2
    cases hstat : t.stat x with
    | none => simp [filelike, hstat] at hfile
    | some loc => simp [lexist?, hstat]
  have hvideos : Engine.videos t library =
      ((listing t root).filter (isVideo t ∘ pathOf library)).map (pathOf library) := by
    calc
      Engine.videos t library
          = (Dir.glob t (File.join [library, "**".toList, "*".toList])).filter (isVideo t) :=
            List.filter_filter
      _ = ((listing t root).map (pathOf library)).filter (isVideo t) :=
            glob_listing hplain hroot hdir htest
      _ = ((listing t root).filter (isVideo t ∘ pathOf library)).map (pathOf library) :=
            List.filter_map
  have hvalid : ∀ rel ∈ listing t root, ∀ name ∈ rel, ValidName name := by
    intro rel hrel name hname
    rcases Option.isSome_iff_exists.1 (mem_listing.1 hrel).2.1 with ⟨node, hnode⟩
    exact Tree.validName_of_node? hnode name (List.mem_append.2 (Or.inr hname))
  refine ⟨(listing t root).filter (isVideo t ∘ pathOf library),
    (nodup_listing t root).filter _, ?_, ?_⟩
  · intro rel
    rw [List.mem_filter]
    constructor
    · -- the listing knows the place, the filter the file and its extension
      rintro ⟨hrel, hpass⟩
      rcases mem_listing.1 hrel with ⟨hne, hthere, hdots⟩
      rcases List.eq_nil_or_concat' rel with rfl | ⟨dirs, name, rfl⟩
      · exact absurd rfl hne
      · have hname : ValidName name := hvalid _ hrel name (by simp)
        rw [Function.comp_apply] at hpass
        have hpass' := isVideo_iff.1 hpass
        refine ⟨dirs, name, rfl, hdots, (filelike_below hroot hthere).1 hpass'.2, ?_⟩
        have hsame : File.extname (pathOf library (dirs ++ [name])) = File.extname name :=
          extname_below hname
        have hext := List.contains_iff_mem.1 hpass'.1
        rwa [hsame] at hext
    · rintro ⟨dirs, name, rfl, hdots, hreached, hext⟩
      have hthere : (t.node? (root ++ (dirs ++ [name]))).isSome = true := by
        rw [← List.append_assoc]
        exact isSome_of_reached hreached
      have hrel : dirs ++ [name] ∈ listing t root := mem_listing.2 ⟨by simp, hthere, hdots⟩
      have hname : ValidName name := hvalid _ hrel name (by simp)
      have hsame : File.extname (pathOf library (dirs ++ [name])) = File.extname name :=
        extname_below hname
      have hfile : filelike t (pathOf library (dirs ++ [name])) = true :=
        (filelike_below hroot hthere).2 hreached
      rw [← hsame] at hext
      have hallowed : AllowedFiletypes.contains
          (File.extname (pathOf library (dirs ++ [name]))).downcase = true :=
        List.contains_iff_mem.2 hext
      refine ⟨hrel, ?_⟩
      rw [Function.comp_apply]
      exact isVideo_iff.2 ⟨hallowed, hfile⟩
  · rw [Engine.items, hvideos, List.map_map]
    refine List.map_congr_left ?_
    intro rel hrel
    have hmem := (List.mem_filter.1 hrel).1
    exact new_below hlibrary (mem_listing.1 hmem).1 (hvalid rel hmem)

/-! ## A library that is read as another path -/

theorem reached_looping {t : Tree} {c v : Str} {links : List Str} (hl : Looping t c v links)
    {dir : Loc} {name : Str} (h : reached t dir name = some (.file true)) :
    dir ++ [name] = [v] := by
  unfold reached at h
  cases hnode : t.node? (dir ++ [name]) with
  | none => simp [hnode] at h
  | some node =>
      have hdir := @isDir_of_below t dir name (by simp [hnode])
      cases node with
      | link target =>
          -- every link leads to the root, which is no file
          have htarget : target = ['/'] := by
            rw [hl.node?_entry hdir] at hnode
            grind
          simp only [hnode] at h
          rw [htarget, hl.links_root] at h
          simp [Tree.node?] at h
      | file r =>
          exact (hl.file_of_node? hnode).1
      | _ => simp [hnode] at h

theorem video_looping {t : Tree} {c v : Str} {links : List Str} (hl : Looping t c v links)
    (hdot : v.head? ≠ some '.') (hext : (File.extname v).downcase ∈ AllowedFiletypes)
    (rel : List Str) : Video t [] rel ↔ rel = [v] := by
  constructor
  · rintro ⟨dirs, name, rfl, _, hreached, _⟩
    simpa using reached_looping hl hreached
  · rintro rfl
    refine ⟨[], v, rfl, by simpa using hdot, ?_, hext⟩
    simp only [reached, List.nil_append, hl.node?_file]

theorem stat_looping {t : Tree} {c v library : Str} {links : List Str} (hl : Looping t c v links)
    (hplain : ¬ Plain library) (hknown : ∀ n ∈ File.names library, Looping.Known links n) :
    t.stat library = some [] := by
  have hdots : ¬ ∀ n ∈ File.names library, n = ['.'] := fun hall => hplain (plain_of_dots hall)
  have hne : library ≠ [] := by
    rintro rfl
    exact hdots (by simp)
  have hstat := hl.stat_known hne hknown
  rwa [if_neg hdots] at hstat

/-- An item for the one file is made of one path. -/
theorem videos_looping {t : Tree} {c v library target : Str} {links : List Str}
    (hl : Looping t c v links) (hdot : v.head? ≠ some '.')
    (hext : (File.extname v).downcase ∈ AllowedFiletypes)
    (h : ScannedExactly t [] library target (Engine.items t library target)) :
    ∃ x, Engine.videos t library = [x] ∧ EncodingItem.extractSubpath library x = v := by
  rcases h with ⟨rels, hnodup, hmem, hitems⟩
  have hrels : rels = [[v]] := by
    have hperm : rels.Perm [[v]] := by
      refine (List.perm_ext_iff_of_nodup hnodup (by simp)).2 ?_
      intro rel
      rw [hmem, video_looping hl hdot hext, List.mem_singleton]
    exact List.perm_singleton.1 hperm
  rw [hrels, Engine.items] at hitems
  cases hvideos : Engine.videos t library with
  | nil => simp [hvideos] at hitems
  | cons x rest =>
      cases rest with
      | cons y rest => simp [hvideos] at hitems
      | nil =>
          refine ⟨x, rfl, ?_⟩
          simp only [hvideos, List.map_cons, List.map_nil, List.cons.injEq, and_true] at hitems
          have hsubpath := congrArg EncodingItem.subpath hitems
          simpa [EncodingItem.new] using hsubpath

/-- A subpath that is not the whole path leaves out as much as the library has. -/
theorem extractSubpath_cases {library x : Str} :
    EncodingItem.extractSubpath library x = x ∨
      library <+: x ∧
        (EncodingItem.extractSubpath library x).length + ((stem library).length + 1) =
          x.length := by
  unfold EncodingItem.extractSubpath
  split
  · next hcond =>
      have hjoin : File.join [library, []] = stem library ++ ['/'] := by
        have h := @join2_stem library [] (by simp)
        simpa using h
      rcases Str.sub_cases (File.join [library, []]) x with hsame | hlen
      · exact Or.inl hsame
      · right
        refine ⟨Str.index_eq_zero_iff.1 hcond.1, ?_⟩
        rw [hjoin] at hlen ⊢
        simpa using hlen
  · exact Or.inl rfl

/-- How the scan came to a path that leads to the file. -/
theorem of_mem_videos {t : Tree} {c v library x : Str} {links : List Str} (hl : Looping t c v links)
    (h : x ∈ Engine.videos t library) :
    t.stat x = some [v] ∧
      ∃ front ∈ expandBraces (stem library ++ everything).length (stem library),
        ∃ root pats names, Opens front root pats ∧ Matches (c :: v :: links) pats names ∧
          x = root ++ ['/'].intercalate (names ++ [v]) := by
  have hfile : filelike t x = true := by
    have hmem := (List.mem_filter.1 h).1
    exact (List.mem_filter.1 hmem).2
  have hglob : x ∈ Dir.glob t (File.join [library, "**".toList, "*".toList]) := by
    have hmem := (List.mem_filter.1 h).1
    exact (List.mem_filter.1 hmem).1
  have hstat : t.stat x = some [v] := by
    unfold filelike at hfile
    cases hloc : t.stat x with
    | none => simp [hloc] at hfile
    | some loc =>
        cases hnode : t.node? loc with
        | none => simp [hloc, hnode] at hfile
        | some node =>
            cases node with
            | file r => rw [(hl.file_of_node? hnode).1]
            | _ => simp [hloc, hnode] at hfile
  refine ⟨hstat, ?_⟩
  rw [glob_everything, List.mem_flatMap] at hglob
  rcases hglob with ⟨front, hfront, hx⟩
  refine ⟨front, hfront, ?_⟩
  -- a bracket that stays open swallows the rest of the pattern, and nothing is found
  cases hclosed : closes false front with
  | false =>
      rcases segments_open hclosed with ⟨s, tail, hmem, htail⟩
      rw [expand_eq_nil htail hmem] at hx
      cases hx
  | true =>
      rcases opens_of_closes hclosed with ⟨root, pats, hopens⟩
      rw [hopens.segments] at hx
      rcases matches_of_mem_expand hl.subdirs_eq_nil (fun _ _ => hl.mem_of_mem_entries) hx with
        ⟨names, name, hm, hname, hx'⟩
      rw [foldl_add_root root (by simp)] at hx'
      have hnames : File.names x = names.flatMap File.names ++ [name] := by
        have hvalid := hl.validName_of_mem hname
        rw [hx', names_root_intercalate hopens.start, List.flatMap_append]
        simp [File.names_of_no_sep hvalid.1 hvalid.2.1]
      have hlast := (hl.name_of_stat hnames hname hstat).1
      exact ⟨root, pats, names, hopens, hm, by rw [hx', hlast]⟩

theorem mem_videos {t : Tree} {c v library front root : Str} {links pats names : List Str}
    (hl : Looping t c v links) (hdot : v.head? ≠ some '.')
    (hext : (File.extname v).downcase ∈ AllowedFiletypes)
    (hfront : front ∈ expandBraces (stem library ++ everything).length (stem library))
    (hopens : Opens front root pats) (hm : Matches links pats names) (hne : names ≠ [])
    (hknown : ∀ n ∈ names.flatMap File.names, Looping.Known links n)
    (hdirs : File.isAbsolute (root ++ ['/'].intercalate names) = true ∨
      ∃ n ∈ names.flatMap File.names, n ≠ ['.']) :
    root ++ ['/'].intercalate names ++ '/' :: v ∈ Engine.videos t library := by
  rcases hl.mem_expand hdot hopens.start hm hne hknown hdirs with ⟨hx, hstat⟩
  have hglob : root ++ ['/'].intercalate names ++ '/' :: v ∈
      Dir.glob t (File.join [library, "**".toList, "*".toList]) := by
    rw [glob_everything, List.mem_flatMap]
    exact ⟨front, hfront, by rwa [hopens.segments]⟩
  have hfile : filelike t (root ++ ['/'].intercalate names ++ '/' :: v) = true := by
    simp only [filelike, hstat, Option.bind_some, hl.node?_file]
  refine List.mem_filter.2 ⟨List.mem_filter.2 ⟨hglob, hfile⟩, ?_⟩
  rw [File.extname_append_sep _ hl.file]
  exact List.contains_iff_mem.2 hext

theorem extname_avi (size : Nat) :
    File.extname (List.replicate (size + 1) 'v' ++ ".avi".toList) = ".avi".toList := by
  have hhead : (List.replicate (size + 1) 'v' ++ ".avi".toList).getLast? ≠ some '/' := by simp
  have hbase : File.basename (List.replicate (size + 1) 'v' ++ ".avi".toList) =
      List.replicate (size + 1) 'v' ++ ".avi".toList := by
    rw [File.basename, File.chompSep_of_getLast?_ne hhead, List.rtakeWhile_eq_self_iff]
    intro c hc
    rcases List.mem_append.1 hc with hc | hc
    · rw [(List.mem_replicate.1 hc).2]
      rfl
    · have hall : ∀ x ∈ ".avi".toList, (x != '/') = true := by simp
      exact hall c hc
  have hstem : (List.replicate (size + 1) 'v' ++ ".avi".toList).rdropWhile (· != '.') =
      List.replicate (size + 1) 'v' ++ ['.'] := by
    simp [List.rdropWhile]
  have hrest : (List.replicate (size + 1) 'v' ++ ".avi".toList).rtakeWhile (· != '.') =
      "avi".toList := by
    simp [List.rtakeWhile]
  simp only [File.extname, hbase, hstem, hrest]
  simp

/-- What the pattern of a library has to do with its own path: it names that path, and another one
as well. -/
structure Misread (library front root : Str) (all pats names : List Str) : Prop where
  expanded : front ∈ expandBraces (stem library ++ everything).length (stem library)
  opens : Opens front root pats
  matched : Matches all pats names
  ne : names ≠ []
  path : root ++ ['/'].intercalate names = stem library
  other : ∃ before name d after, names = before ++ name :: after ∧ name ∈ all ∧ Decoy name d ∧
    Matches (d :: all) pats (before ++ d :: after)

theorem misread_of_scanned {t : Tree} {c v library x : Str} {links : List Str}
    (hl : Looping t c v links) (hplain : ¬ Plain library) (hx : x ∈ Engine.videos t library)
    (hsubpath : EncodingItem.extractSubpath library x = v) :
    ∃ front root pats names, Misread library front root (c :: v :: links) pats names := by
  rcases of_mem_videos hl hx with ⟨hstat, front, hfront, root, pats, names, hopens, hm, hpath⟩
  have hlong : library <+: x ∧ v.length + ((stem library).length + 1) = x.length := by
    rcases @extractSubpath_cases library x with hsame | hlong
    -- the file is not where its bare name leads
    · exfalso
      have hxv : x = v := hsame.symm.trans hsubpath
      have hnames : File.names x = [] ++ [v] := by
        rw [hxv, File.names_of_no_sep hl.file.1 hl.file.2.1, List.nil_append]
      have hwalk := (hl.name_of_stat hnames (by simp) hstat).2
      have hrel : File.isAbsolute x = false := by
        rw [hxv]
        cases hv : v with
        | nil => rfl
        | cons a rest =>
            have ha : a ≠ '/' := by
              rintro rfl
              exact hl.file.2.1 (by simp [hv])
            simpa [File.isAbsolute] using ha
      simp [origin, hrel, hl.cwd] at hwalk
    · rwa [hsubpath] at hlong
  have hlen := hlong.2
  rw [hpath, Matches.length_of_names] at hlen
  rcases hopens.whole with ⟨_, rfl, rfl⟩ | ⟨_, hpats, hwhole⟩
  · exfalso
    cases hm
    simp only [Matches.weight_nil, List.length_singleton] at hlen
    have hnil : stem library = [] := List.eq_nil_of_length_eq_zero (by omega)
    apply hplain
    rw [← plain_stem, hnil]
    exact plain_of_dots (by simp)
  · have hpatlen := Matches.length_intercalate hpats
    have hwholelen := congrArg List.length hwhole
    rw [List.length_append] at hwholelen
    have hall : ∀ n ∈ c :: v :: links, '/' ∉ n := fun n hn => (hl.validName_of_mem hn).2.1
    rcases hm.cases hall with
      hlt | ⟨hsame, hliteral⟩ | ⟨before, name, d, after, hnames, hmem, hd, hother⟩
    -- the pattern is as long as the path, at most
    · exfalso
      rcases of_mem_expandBraces _ hfront with hshort | ⟨hfront', _⟩
      · omega
      · rw [hfront'] at hwholelen
        omega
    -- the pattern is the path, and has no wildcard
    · exfalso
      rw [hsame] at hlen
      rcases of_mem_expandBraces _ hfront with hshort | ⟨hfront', hopen⟩
      · omega
      · have hbrace : closedBrace (stem library) = false := by
          rcases hopen with hzero | hopen
          · simp [everything] at hzero
          · exact hopen
        have hchars := hopens.literal.1 hliteral
        rw [hfront'] at hchars
        exact hplain (plain_stem.1 ⟨hchars, hbrace⟩)
    · have hne : names ≠ [] := by simp [hnames]
      refine ⟨front, root, pats, names, hfront, hopens, hm, hne, ?_,
        before, name, d, after, hnames, hmem, hd, hother⟩
      have hparts : x = root ++ ['/'].intercalate names ++ '/' :: v := by
        rw [hpath, intercalate_concat hne, List.append_assoc]
      have hnameslen := Matches.length_intercalate hne
      have hstem : stem library <+: library := by
        unfold stem
        split
        · exact List.dropLast_prefix library
        · exact List.prefix_refl library
      have hfront₁ : root ++ ['/'].intercalate names <+: x := ⟨_, hparts.symm⟩
      have hfront₂ : stem library <+: x := hstem.trans hlong.1
      have hsize : (root ++ ['/'].intercalate names).length = (stem library).length := by
        rw [List.length_append]
        omega
      exact (List.prefix_of_prefix_length_le hfront₁ hfront₂ hsize.le).eq_of_length hsize

/-- The names of `library` that a directory can have an entry of. -/
def entryNames (library : Str) : List Str :=
  (File.names library).filter fun n => decide (ValidName n)

theorem mem_entryNames {library n : Str} :
    n ∈ entryNames library ↔ n ∈ File.names library ∧ ValidName n := by
  simp [entryNames]

theorem known_entryNames {library n : Str} (h : n ∈ File.names library) :
    Looping.Known (entryNames library) n := by
  rcases validName_or_dots h with hvalid | hdots
  · exact Or.inl (mem_entryNames.2 ⟨h, hvalid⟩)
  · exact Or.inr hdots

theorem mem_of_mem_replaced {before after : List Str} {name d x : Str}
    (h : x ∈ before ++ d :: after) (hne : x ≠ d) : x ∈ before ++ name :: after := by
  simp only [List.mem_append, List.mem_cons] at h ⊢
  rcases h with h | h | h
  · exact Or.inl h
  · exact absurd h hne
  · exact Or.inr (Or.inr h)

/-- In a tree with links for both names, the file is found under two paths. -/
theorem two_videos {library front root : Str} {all pats names : List Str}
    (hall : ∀ n ∈ all, ValidName n) (hplain : ¬ Plain library)
    (h : Misread library front root all pats names) :
    ∃ links, (∀ n ∈ links, ValidName n) ∧ (∀ n ∈ File.names library, Looping.Known links n) ∧
      ∀ t c v, Looping t c v links → v.head? ≠ some '.' →
        (File.extname v).downcase ∈ AllowedFiletypes →
        ∃ x ∈ Engine.videos t library, ∃ y ∈ Engine.videos t library, x ≠ y := by
  rcases h.other with ⟨before, name, d, after, hnames, _, hd, hother⟩
  let links := d :: entryNames library
  have hknown : ∀ n ∈ File.names library, Looping.Known links n := by
    intro n hn
    rcases known_entryNames hn with hentry | hdots
    · exact Or.inl (List.mem_cons_of_mem _ hentry)
    · exact Or.inr hdots
  have hlibrary : names.flatMap File.names = File.names library := by
    rw [← names_stem library, ← h.path, names_root_intercalate h.opens.start]
  have hmem : ∀ n ∈ names, n ∈ all → n ∈ links := by
    intro n hn hn'
    have hvalid := hall n hn'
    have hpart : n ∈ File.names library := by
      rw [← hlibrary]
      exact List.mem_flatMap.2 ⟨n, hn, by simp [File.names_of_no_sep hvalid.1 hvalid.2.1]⟩
    exact List.mem_cons_of_mem _ (mem_entryNames.2 ⟨hpart, hvalid⟩)
  -- a library of dots alone is plain
  have hsome : ∃ n ∈ File.names library, n ≠ ['.'] := by
    by_contra hnone
    apply hplain
    apply plain_of_dots
    intro n hn
    by_contra hne
    exact hnone ⟨n, hn, hne⟩
  have hdname : File.names d = [d] := File.names_of_no_sep hd.validName.1 hd.noSep
  refine ⟨links, ?_, hknown, ?_⟩
  · intro n hn
    rcases List.mem_cons.1 hn with rfl | hn
    · exact hd.validName
    · exact (mem_entryNames.1 hn).2
  · intro t c v hl hdot hext
    have hfirst := mem_videos hl hdot hext h.expanded h.opens (h.matched.mono hmem) h.ne
      (by rwa [hlibrary]) (Or.inr (by rwa [hlibrary]))
    -- the other reading has the decoy in the place of one name, and is matched as well
    have hotherknown : ∀ n ∈ (before ++ d :: after).flatMap File.names, Looping.Known links n := by
      intro n hn
      rcases List.mem_flatMap.1 hn with ⟨x, hx, hn'⟩
      by_cases hxd : x = d
      · rw [hxd, hdname] at hn'
        exact Or.inl (by rw [List.mem_singleton.1 hn']; exact List.mem_cons_self)
      · apply hknown
        rw [← hlibrary, hnames]
        exact List.mem_flatMap.2 ⟨x, mem_of_mem_replaced hx hxd, hn'⟩
    have hothermatched : Matches links pats (before ++ d :: after) := by
      refine hother.mono ?_
      intro n hn hn'
      by_cases hnd : n = d
      · rw [hnd]
        exact List.mem_cons_self
      · have hn'' : n ∈ all := by simpa [hnd] using hn'
        apply hmem n _ hn''
        rw [hnames]
        exact mem_of_mem_replaced hn hnd
    have hdots : ∃ n ∈ (before ++ d :: after).flatMap File.names, n ≠ ['.'] :=
      ⟨d, List.mem_flatMap.2 ⟨d, by simp, by simp [hdname]⟩, hd.validName.2.2.1⟩
    have hsecond := mem_videos hl hdot hext h.expanded h.opens hothermatched (by simp) hotherknown
      (Or.inr hdots)
    refine ⟨_, hfirst, _, hsecond, ?_⟩
    intro heq
    have hcancel := List.append_cancel_left (List.append_cancel_right heq)
    rw [hnames] at hcancel
    exact hd.ne (intercalate_inj hcancel).symm

/-- A library that is not plain is misread in some tree. -/
theorem plain_of_exact {library : Str}
    (h : ∀ (t : Tree) (root : Loc) (target : Str), t.stat library = some root →
      t.isDir root = true → ScannedExactly t root library target (Engine.items t library target)) :
    Plain library := by
  by_contra hplain
  have hdot : ∀ size, (List.replicate (size + 1) 'v' ++ ".avi".toList).head? ≠ some '.' := by
    intro size
    simp [List.replicate_succ]
  have hext : ∀ size, (File.extname (List.replicate (size + 1) 'v' ++ ".avi".toList)).downcase ∈
      AllowedFiletypes := by
    intro size
    rw [extname_avi]
    decide
  -- the one video of a tree in which the library is found
  have hone : ∀ t c size links,
      Looping t c (List.replicate (size + 1) 'v' ++ ".avi".toList) links →
      (∀ n ∈ File.names library, Looping.Known links n) →
      ∃ x, Engine.videos t library = [x] ∧
        EncodingItem.extractSubpath library x = List.replicate (size + 1) 'v' ++ ".avi".toList := by
    intro t c size links hl hknown
    have hexact := h t [] [] (stat_looping hl hplain hknown) (isDir_root t)
    exact videos_looping hl (hdot size) (hext size) hexact
  have hlinks : ∀ n ∈ entryNames library, ValidName n := fun n hn => (mem_entryNames.1 hn).2
  have hsep : '/' ∉ ".avi".toList := by decide
  rcases exists_looping hlinks hsep with ⟨t, c, size, hl⟩
  rcases hone t c size _ hl (fun n hn => known_entryNames hn) with ⟨x, hvideos, hsubpath⟩
  rcases misread_of_scanned hl hplain (by simp [hvideos]) hsubpath with
    ⟨front, root, pats, names, hmisread⟩
  rcases two_videos (fun _ hn => hl.validName_of_mem hn) hplain hmisread with
    ⟨links', hlinks', hknown', htwo⟩
  rcases exists_looping hlinks' hsep with ⟨t', c', size', hl'⟩
  rcases hone t' c' size' links' hl' hknown' with ⟨z, hvideos', _⟩
  rcases htwo t' c' _ hl' (hdot size') (hext size') with ⟨x', hx', y', hy', hne⟩
  rw [hvideos', List.mem_singleton] at hx' hy'
  exact hne (hx'.trans hy'.symm)

/-! ## When the scan is right -/

/-- Whatever tree the library is in, the scan adds one item for each of its videos and nothing else,
just if the library has no wildcard, no backslash and no first brace that is closed. -/
theorem Engine.enqueue_exact_iff {τ : Type} (w : World τ) (library : Str) :
    (∀ (t : Tree) (root : Loc) (target : Str), t.stat library = some root → t.isDir root = true →
      ∃ added w', Engine.enqueueFilesToEncode library target (w.setTree t) = .ok () w' ∧
        w'.state.toEncodeQueue = w.state.toEncodeQueue ++ added ∧
        ScannedExactly t root library target added) ↔ Plain library := by
  have hadded : ∀ (t : Tree) (target : Str), ∃ w',
      Engine.enqueueFilesToEncode library target (w.setTree t) = .ok () w' ∧
        w'.state.toEncodeQueue = w.state.toEncodeQueue ++ Engine.items t library target := by
    intro t target
    exact ⟨_, rfl, State.toEncodeQueue_addToQueue w.state _⟩
  constructor
  · intro h
    apply plain_of_exact
    intro t root target hroot hdir
    rcases hadded t target with ⟨w₁, hrun, hqueue⟩
    rcases h t root target hroot hdir with ⟨added, w₂, hrun', hqueue', hexact⟩
    have hsame : w₁ = w₂ := by
      rw [hrun] at hrun'
      cases hrun'
      rfl
    rw [← hsame, hqueue] at hqueue'
    rwa [List.append_cancel_left hqueue']
  · intro hplain t root target hroot hdir
    rcases hadded t target with ⟨w', hrun, hqueue⟩
    exact ⟨_, w', hrun, hqueue, items_plain hplain hroot hdir target⟩

namespace Sample

/-- A library `v[1]` with one video, beside a directory `v1` with another. -/
def brackets : Tree :=
  ((((Tree.empty 1).put [] "v[1]".toList (.dir true)).put ["v[1]".toList] "a.avi".toList
    (.file true)).put [] "v1".toList (.dir true)).put ["v1".toList] "b.avi".toList (.file true)

end Sample

/-- The brackets are read as a set: the video in `v[1]` is left out, the one in `v1` is queued. -/
theorem brackets_scan_elsewhere :
    Sample.brackets.stat "v[1]".toList = some ["v[1]".toList] ∧
      Sample.brackets.isDir ["v[1]".toList] = true ∧
      Video Sample.brackets ["v[1]".toList] ["a.avi".toList] ∧
      Engine.items Sample.brackets "v[1]".toList "t".toList =
        [{ library := "v[1]".toList, subpath := "v1/b.avi".toList, target := "t".toList }] ∧
      ¬ ScannedExactly Sample.brackets ["v[1]".toList] "v[1]".toList "t".toList
        (Engine.items Sample.brackets "v[1]".toList "t".toList) := by
  have hvideo : Video Sample.brackets ["v[1]".toList] ["a.avi".toList] :=
    ⟨[], "a.avi".toList, rfl, by decide, by decide, by decide⟩
  have hitems : Engine.items Sample.brackets "v[1]".toList "t".toList =
      [{ library := "v[1]".toList, subpath := "v1/b.avi".toList, target := "t".toList }] := by
    decide
  refine ⟨by decide, by decide, hvideo, hitems, ?_⟩
  rintro ⟨rels, _, hmem, hadded⟩
  rw [hitems] at hadded
  have hrel : ["a.avi".toList] ∈ rels := (hmem _).2 hvideo
  let item (rel : List Str) : EncodingItem :=
    { library := "v[1]".toList, subpath := ['/'].intercalate rel, target := "t".toList }
  have hitem : item ["a.avi".toList] ∈ rels.map item := List.mem_map_of_mem hrel
  rw [← hadded] at hitem
  revert hitem
  decide

end Yikes
