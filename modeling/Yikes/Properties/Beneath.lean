import Yikes.Properties.Scan
import Yikes.Properties.Subpath
import Yikes.Ruby.Written

/-!
# Beneath — where target paths lead

The target path of an item is its target joined with its rewritten subpath.  For an item of a scan
that subpath ends in `.mp4` (`mp4_suffix_subpathTarget`), and if the library is read as it is written
none of its names is `..` (`no_parent_subpathTarget`).  So unless a link is passed on the way, the
target path leads to a file beneath the target (`beneath_of_unlinked`).
-/

namespace Yikes

open Ruby

namespace EncodingItem

/-! ## The new extension -/

theorem mp4_suffix {e : Str} (he : ∀ c ∈ e, isSpecial c = false) :
    (stem : Str) → '.' :: mp4 <:+ subpathAsTargetExt (stem ++ '.' :: e)
  | [] => by
      have hmatch := subpathAsTargetExt_of_some (lineRun_of_no_special he)
      rw [List.nil_append, hmatch, subpathAsTargetExt_nil, List.append_nil]
  | c :: s => by
      by_cases hdot : c = '.'
      · subst hdot
        cases hrun : lineRun (s ++ '.' :: e) with
        | none =>
            rw [List.cons_append, subpathAsTargetExt_of_none hrun]
            exact (mp4_suffix he s).trans (List.suffix_cons _ _)
        | some r =>
            -- the match ends at a line break, and the last extension is behind it
            rcases break_of_lineRun hrun with ⟨_, b, hs, hrest⟩
            have hlt : ('\n' :: b).length < ('.' :: s).length := by
              simp only [hs, List.length_cons, List.length_append]
              omega
            have ih := mp4_suffix he ('\n' :: b)
            rw [List.cons_append, ← hrest] at ih
            rw [List.cons_append, subpathAsTargetExt_of_some hrun, ← List.cons_append]
            exact ih.trans (List.suffix_append _ _)
      · rw [List.cons_append, subpathAsTargetExt_of_ne hdot]
        exact (mp4_suffix he s).trans (List.suffix_cons _ _)
termination_by stem => stem.length

/-- What has no separator and stands at the end stands behind the last separator. -/
theorem suffix_behind {e front back : Str} (he : '/' ∉ e) (h : e <:+ front ++ '/' :: back) :
    e <:+ back := by
  rcases List.suffix_or_suffix_of_suffix h (List.suffix_append front ('/' :: back)) with
    hshort | hlong
  · rcases List.suffix_cons_iff.1 hshort with heq | hback
    · exact absurd (by simp [heq]) he
    · exact hback
  · exact absurd (hlong.subset List.mem_cons_self) he

/-- Only what ends in a separator is taken away. -/
theorem suffix_extractSubpath {e library x : Str} (he : '/' ∉ e) (h : e <:+ x) :
    e <:+ extractSubpath library x := by
  unfold extractSubpath
  split
  · have hjoin : ∃ front, File.join [library, []] = front ++ ['/'] := by
      by_cases hsep : library.getLast? = some '/'
      · have hparts : library.dropLast ++ ['/'] = library := List.dropLast_append_getLast? _ hsep
        exact ⟨library.dropLast, by simp [File.join2, hsep, hparts]⟩
      · exact ⟨library, by simp [File.join2, hsep]⟩
    rcases hjoin with ⟨front, hfront⟩
    rcases Str.sub_parts (File.join [library, []]) [] x with hsame | ⟨a, b, hx, hsub⟩
    · rwa [hsame]
    · rw [hsub, List.nil_append]
      have hback : e <:+ b := by
        apply @suffix_behind e (a ++ front) b he
        rw [hx, hfront] at h
        simpa using h
      exact hback.trans (List.suffix_append a b)
  · exact h

/-! ## Names that start with a dot -/

/-- The rewriting puts no dot behind a separator. -/
theorem dot_of_subpathAsTargetExt : (c : Char) → (s : Str) →
    ['/', '.'] <:+: c :: subpathAsTargetExt s → ['/', '.'] <:+: c :: s
  | _, [], h => by
      rwa [subpathAsTargetExt_nil] at h
  | c, d :: s, h => by
      by_cases hdot : d = '.'
      · subst hdot
        -- the first dot stays
        have hfirst : ∀ rest rest' : Str, (['/', '.'] <:+: '.' :: rest → ['/', '.'] <:+: rest') →
            ['/', '.'] <:+: c :: '.' :: rest → ['/', '.'] <:+: c :: '.' :: rest' := by
          intro rest rest' hrest hinfix
          rcases List.infix_cons_iff.1 hinfix with hfront | hback
          · have hc : '/' = c := (List.cons_prefix_cons.1 hfront).1
            rw [← hc]
            exact ⟨[], rest', rfl⟩
          · exact List.infix_cons (List.infix_cons (hrest hback))
        cases hrun : lineRun s with
        | none =>
            rw [subpathAsTargetExt_of_none hrun] at h
            refine hfirst _ _ ?_ h
            intro hrest
            have ih := dot_of_subpathAsTargetExt '.' s hrest
            rcases List.infix_cons_iff.1 ih with hfront | hback
            · cases (List.cons_prefix_cons.1 hfront).1
            · exact hback
        | some r =>
            have hsame := (lineRun_spec hrun).1
            have hlt : r.2.length ≤ s.length := by
              rw [← hsame]
              simp
            rw [subpathAsTargetExt_of_some hrun] at h
            refine hfirst _ _ ?_ h
            intro hrest
            have hbehind : ['/', '.'] <:+: '4' :: subpathAsTargetExt r.2 := by
              simpa [mp4, List.infix_cons_iff, List.cons_prefix_cons] using hrest
            have ih := dot_of_subpathAsTargetExt '4' r.2 hbehind
            rcases List.infix_cons_iff.1 ih with hfront | hback
            · cases (List.cons_prefix_cons.1 hfront).1
            · rw [← hsame]
              exact hback.trans List.infix_append_right
      · rw [subpathAsTargetExt_of_ne hdot] at h
        rcases List.infix_cons_iff.1 h with hfront | hback
        · have hd := (List.cons_prefix_cons.1 (List.cons_prefix_cons.1 hfront).2).1
          exact absurd hd.symm hdot
        · exact List.infix_cons (dot_of_subpathAsTargetExt d s hback)
termination_by _ s => s.length

end EncodingItem

/-! ## The path of a video -/

/-- A file has no path that ends in a separator. -/
theorem getLast?_of_filelike {t : Tree} {x : Str} (h : filelike t x = true) :
    x.getLast? ≠ some '/' := by
  intro hlast
  cases hstat : t.stat x with
  | none => simp [filelike, hstat] at h
  | some loc =>
      have hne : x ≠ [] := by
        rintro rfl
        simp at hlast
      rw [Tree.stat_eq_walk hne, File.components, if_pos hlast, Tree.walk_append] at hstat
      rcases Option.bind_eq_some_iff.1 hstat with ⟨dir, _, hdot⟩
      rw [Tree.walk_cons] at hdot
      rcases Option.bind_eq_some_iff.1 hdot with ⟨next, hnext, hend⟩
      have hdir := Tree.isDir_of_step hnext
      have hsame : dir = next := by simpa [Tree.step, hdir] using hnext
      have hloc : next = loc := by simpa using hend
      rcases Tree.isDir_iff.1 hdir with ⟨w, hnode⟩
      rw [hsame, hloc] at hnode
      have hstat' : t.stat x = some loc := by
        rw [Tree.stat_eq_walk hne, File.components, if_pos hlast, Tree.walk_append, hstat]
      simp [filelike, hstat', hnode] at h

theorem extname_suffix {path : Str} (hlast : path.getLast? ≠ some '/') :
    File.extname path <:+ path := by
  have hchomp : File.chompSep path = path := File.chompSep_of_getLast?_ne hlast
  have hbase : File.basename path <:+ path := by
    rw [File.basename, hchomp]
    exact List.rtakeWhile_suffix _ _
  refine List.IsSuffix.trans ?_ hbase
  unfold File.extname
  simp only
  split
  · exact List.nil_suffix
  · next hlong =>
      have hstem : (File.basename path).rdropWhile (· != '.') ≠ [] := by
        intro hnil
        simp [hnil] at hlong
      have hdot : ((File.basename path).rdropWhile (· != '.')).getLast hstem = '.' := by
        have hnot := List.rdropWhile_last_not (· != '.') (File.basename path) hstem
        simpa using hnot
      have hparts := List.dropLast_append_getLast hstem
      rw [hdot] at hparts
      refine ⟨((File.basename path).rdropWhile (· != '.')).dropLast, ?_⟩
      calc
        ((File.basename path).rdropWhile (· != '.')).dropLast ++
              '.' :: (File.basename path).rtakeWhile (· != '.')
            = (((File.basename path).rdropWhile (· != '.')).dropLast ++ ['.']) ++
              (File.basename path).rtakeWhile (· != '.') := by simp
        _ = File.basename path := by rw [hparts, List.rdropWhile_append_rtakeWhile]

theorem mp4_suffix_subpathTarget {t : Tree} {library target x : Str}
    (hx : x ∈ Engine.videos t library) :
    '.' :: EncodingItem.mp4 <:+ (EncodingItem.new library x target).subpathTarget := by
  rw [Engine.videos, getFileList, List.filter_filter, List.mem_filter] at hx
  rcases isVideo_iff.1 hx.2 with ⟨hallowed, hfile⟩
  rcases EncodingItem.ext_of_allowed hallowed with ⟨e, hext, he⟩
  have hsep : '/' ∉ '.' :: e := by
    intro hmem
    have hmem' : '/' ∈ e := by simpa using hmem
    have hno := he '/' hmem'
    cases hno
  have hend : '.' :: e <:+ x := by
    rw [← hext]
    exact extname_suffix (getLast?_of_filelike hfile)
  rcases @EncodingItem.suffix_extractSubpath _ library _ hsep hend with ⟨stem, hstem⟩
  have hsubpath : (EncodingItem.new library x target).subpathTarget =
      EncodingItem.subpathAsTargetExt (stem ++ '.' :: e) := by
    rw [hstem]
    rfl
  rw [hsubpath]
  exact EncodingItem.mp4_suffix he stem

/-! ## No way up -/

theorem infix_of_mem_names {s name : Str} (h : name ∈ File.names s) :
    '/' :: name <:+: '/' :: s := by
  have hmem : name ∈ s.splitOn '/' := (List.mem_filter.1 h).1
  have hparts : '/' :: s = (s.splitOn '/').flatMap fun name => '/' :: name := by
    rw [← Glob.sep_intercalate (List.splitOn_ne_nil '/' s), List.intercalate_splitOn]
  rcases List.append_of_mem hmem with ⟨front, back, hsplit⟩
  refine ⟨front.flatMap fun name => '/' :: name, back.flatMap fun name => '/' :: name, ?_⟩
  rw [hparts, hsplit]
  simp

theorem no_dot_flatMap {rel : List Str} (h : ∀ name ∈ rel, ValidName name ∧ name.head? ≠ some '.') :
    ¬ ['/', '.'] <:+: rel.flatMap fun name => '/' :: name := by
  induction rel with
  | nil => simp
  | cons name rel ih =>
      have hname := h name (by simp)
      have hrest := ih fun x hx => h x (by simp [hx])
      -- no separator in a name
      have hskip : ∀ front : Str, '/' ∉ front →
          ['/', '.'] <:+: front ++ rel.flatMap (fun name => '/' :: name) →
          ['/', '.'] <:+: rel.flatMap fun name => '/' :: name := by
        intro front
        induction front with
        | nil =>
            intro _ hinfix
            exact hinfix
        | cons c front ihfront =>
            intro hsep hinfix
            rcases List.infix_cons_iff.1 hinfix with hfirst | hback
            · have hc : '/' = c := (List.cons_prefix_cons.1 hfirst).1
              exact absurd (List.mem_cons.2 (Or.inl hc)) hsep
            · exact ihfront (fun hmem => hsep (by simp [hmem])) hback
      intro hinfix
      rw [List.flatMap_cons, List.cons_append] at hinfix
      rcases List.infix_cons_iff.1 hinfix with hfirst | hback
      · have hdot := (List.cons_prefix_cons.1 hfirst).2
        cases hchars : name with
        | nil => exact hname.1.1 hchars
        | cons c chars =>
            rw [hchars, List.cons_append] at hdot
            have hc : '.' = c := (List.cons_prefix_cons.1 hdot).1
            exact hname.2 (by rw [hchars, hc]; rfl)
      · exact hrest (hskip name hname.1.2.1 hback)

/-- A library that is read as it is written gives its items no way up from the target. -/
theorem no_parent_subpathTarget {t : Tree} {library target x : Str} (hplain : Glob.Plain library)
    (hx : x ∈ Engine.videos t library) :
    ['.', '.'] ∉ File.names (EncodingItem.new library x target).subpathTarget := by
  rw [Engine.videos, getFileList, List.filter_filter, List.mem_filter] at hx
  rcases Glob.of_mem_glob_plain hplain hx.1 with ⟨rel, hne, hnames, hpath⟩
  have hno := no_dot_flatMap hnames
  have hsubpath : ¬ ['/', '.'] <:+: '/' :: (EncodingItem.new library x target).subpath := by
    by_cases hlibrary : library = []
    · -- the whole path is kept, and it starts with a separator
      have hx' : x = rel.flatMap fun name => '/' :: name := by
        rw [hpath, hlibrary]
        rfl
      have hkeep : (EncodingItem.new library x target).subpath = x := by
        simp [EncodingItem.new, EncodingItem.extractSubpath, hlibrary]
      rw [hkeep, hx', ← Glob.sep_intercalate hne] at *
      intro hinfix
      rcases List.infix_cons_iff.1 hinfix with hfirst | hback
      · cases (List.cons_prefix_cons.1 (List.cons_prefix_cons.1 hfirst).2).1
      · exact hno hback
    · have hnew := @new_below library target rel hlibrary hne fun name hname =>
        (hnames name hname).1
      rw [pathOf, ← hpath] at hnew
      rw [hnew, Glob.sep_intercalate hne]
      exact hno
  intro hmem
  have hup : ['/', '.'] <:+: '/' :: (EncodingItem.new library x target).subpathTarget :=
    List.IsInfix.trans ⟨[], ['.'], rfl⟩ (infix_of_mem_names hmem)
  exact hsubpath (EncodingItem.dot_of_subpathAsTargetExt '/' _ hup)

/-! ## Where outputs are -/

/-- Somewhere below `root`, under a name that ends in `.mp4`. -/
def Beneath (root loc : Loc) : Prop :=
  ∃ dirs name, loc = root ++ dirs ++ [name] ∧ '.' :: EncodingItem.mp4 <:+ name

/-- `loc` is where a path ending in `.mp4` leads from the target.  It is beneath the target unless a
name of the path is that of a link or leads up; if the library is read as it is written, none leads
up. -/
def Output (t : Tree) (library target : Str) (loc : Loc) : Prop :=
  ∃ sub root, '.' :: EncodingItem.mp4 <:+ sub ∧
    t.stat (File.join [target, sub]) = some loc ∧ t.stat (File.join [target, []]) = some root ∧
    (Glob.Plain library → ['.', '.'] ∉ File.names sub) ∧
    (t.Unlinked root (File.names sub) → Beneath root loc)

/-- The last name of a path that ends in `.mp4` does so too. -/
theorem basename_of_mp4_suffix {path : Str} (h : '.' :: EncodingItem.mp4 <:+ path) :
    path.getLast? ≠ some '/' ∧ '.' :: EncodingItem.mp4 <:+ File.basename path := by
  have hsep : '/' ∉ '.' :: EncodingItem.mp4 := by decide
  rcases h with ⟨front, hfront⟩
  have hlast : path.getLast? ≠ some '/' := by
    rw [← hfront, List.getLast?_append_of_ne_nil _ (by simp)]
    decide
  have hchomp : File.chompSep path = path := File.chompSep_of_getLast?_ne hlast
  have hparts : File.upToName path ++ File.basename path = path := by
    have happend : File.upToName path ++ File.basename path = File.chompSep path :=
      List.rdropWhile_append_rtakeWhile
    rw [happend, hchomp]
  refine ⟨hlast, ?_⟩
  rcases File.upToName_cases path with hnil | ⟨u, hu⟩
  · rw [hnil, List.nil_append] at hparts
    rw [hparts]
    exact ⟨front, hfront⟩
  · apply @EncodingItem.suffix_behind _ u _ hsep
    refine ⟨front, ?_⟩
    rw [hfront]
    rw [hu] at hparts
    simpa using hparts.symm

theorem validName_of_mp4_suffix {path : Str} (h : '.' :: EncodingItem.mp4 <:+ path) :
    ValidName (File.basename path) := by
  have hname := (basename_of_mp4_suffix h).2
  have hlength : 4 ≤ (File.basename path).length := hname.length_le
  refine ⟨?_, File.sep_not_mem_basename path, ?_, ?_⟩
  all_goals
    intro heq
    rw [heq] at hlength
    exact absurd hlength (by decide)

theorem names_of_mp4_suffix {sub : Str} (h : '.' :: EncodingItem.mp4 <:+ sub) :
    ∃ dirs name, File.names sub = dirs ++ [name] ∧ '.' :: EncodingItem.mp4 <:+ name :=
  ⟨_, _, File.names_eq_append_basename (validName_of_mp4_suffix h).1, (basename_of_mp4_suffix h).2⟩

theorem output_of_stat {t : Tree} {target sub : Str} {loc : Loc}
    (hsub : '.' :: EncodingItem.mp4 <:+ sub) (h : t.stat (File.join [target, sub]) = some loc) :
    ∃ root, t.stat (File.join [target, []]) = some root ∧
      (t.Unlinked root (File.names sub) → Beneath root loc) := by
  rcases names_of_mp4_suffix hsub with ⟨dirs, name, hnames, hname⟩
  have hrel : File.names sub ≠ [] := by simp [hnames]
  rcases Tree.walk_of_stat_join hrel h with ⟨root, hroot, hwalk⟩
  refine ⟨root, hroot, ?_⟩
  intro hway
  have hloc := Tree.walk_unlinked hway hwalk
  have hdot : name ≠ ['.'] := by
    rintro rfl
    exact absurd (List.IsSuffix.length_le hname) (by decide)
  refine ⟨dirs.filter fun name => name ≠ ['.'], name, ?_, hname⟩
  simp [hloc, hnames, hdot]

/-- The target path of an item of a scan leads to an output. -/
theorem output_of_mem_items {t u : Tree} {library target : Str} {item : EncodingItem} {loc : Loc}
    (hitem : item ∈ Engine.items t library target) (h : u.stat item.targetPath = some loc) :
    Output u library target loc := by
  rcases List.mem_map.1 hitem with ⟨x, hx, rfl⟩
  have hsub := @mp4_suffix_subpathTarget t library target x hx
  have hstat : u.stat (File.join [target, (EncodingItem.new library x target).subpathTarget]) =
      some loc := h
  rcases output_of_stat hsub hstat with ⟨root, hroot, hbeneath⟩
  exact ⟨_, root, hsub, hstat, hroot, fun hplain => no_parent_subpathTarget hplain hx, hbeneath⟩

end Yikes
