import Yikes.Properties.Converge
import Yikes.Properties.Flow
import Yikes.Ruby.Ways

/-!
# Fill — a pass fills its target

An engine `Serves` a flow when its library and its target are the two places, and in view of the scan
there are directories and readable files only.  Then what a completed pass does to the files is one
spreading by what the flow makes: the files are those from before, and the output of every video among
them (`spread_of_pass`).  The pass calls the transcoder if and only if an output was missing.

`Fills` is how the tree changes on the way.
-/

namespace Yikes

open Ruby

namespace EncodingItem

/-! ## Names in front of the last one -/

theorem lineRun_of_no_break {name : Str} (h : '\n' ∉ name) (s : Str) :
    lineRun (name ++ '/' :: s) = none := by
  induction name with
  | nil => simp [lineRun, isSpecial]
  | cons c name ih =>
      have hc : c ≠ '\n' := fun hc => h (by simp [hc])
      have htail := ih fun hmem => h (by simp [hmem])
      rw [List.cons_append, lineRun, htail]
      simp [hc]

/-- The rewriting leaves the name of a directory without line breaks. -/
theorem subpathAsTargetExt_dir {name : Str} (h : '\n' ∉ name) (s : Str) :
    subpathAsTargetExt (name ++ '/' :: s) = name ++ '/' :: subpathAsTargetExt s := by
  induction name with
  | nil => exact subpathAsTargetExt_of_ne (by decide) s
  | cons c name ih =>
      have htail : '\n' ∉ name := fun hmem => h (by simp [hmem])
      by_cases hdot : c = '.'
      · rw [hdot, List.cons_append, subpathAsTargetExt_of_none (lineRun_of_no_break htail s), ih htail,
          List.cons_append]
      · rw [List.cons_append, subpathAsTargetExt_of_ne hdot, ih htail, List.cons_append]

theorem subpathAsTargetExt_dirs {dirs : List Str} (h : ∀ x ∈ dirs, '\n' ∉ x) (name : Str) :
    subpathAsTargetExt (['/'].intercalate (dirs ++ [name])) =
      ['/'].intercalate (dirs ++ [subpathAsTargetExt name]) := by
  induction dirs with
  | nil => simp
  | cons d dirs ih =>
      have hrest := ih fun x hx => h x (by simp [hx])
      have hcons : ∀ last : Str, ['/'].intercalate (d :: dirs ++ [last]) =
          d ++ '/' :: ['/'].intercalate (dirs ++ [last]) := by
        intro last
        rw [List.cons_append, List.intercalate_cons_of_ne_nil (by simp), List.append_assoc,
          List.singleton_append]
      rw [hcons, subpathAsTargetExt_dir (h d (by simp)), hrest, hcons]

end EncodingItem

/-! ## Files and directories -/

/-- The readable files of a tree. -/
def filesOf (t : Tree) : Set Loc :=
  {loc | t.node? loc = some (.file true)}

theorem finite_filesOf (t : Tree) : (filesOf t).Finite := by
  refine (List.finite_toSet t.nodes.keys).subset ?_
  intro loc hloc
  have hnode : t.node? loc = some (.file true) := hloc
  have hne : loc ≠ [] := by
    rintro rfl
    simp [Tree.node?] at hnode
  have hlookup : t.nodes.lookup loc = some (.file true) := by simpa [Tree.node?, hne] using hnode
  have hmem : loc ∈ t.nodes := AList.lookup_isSome.1 (by simp [hlookup])
  exact AList.mem_keys.1 hmem

/-- A name that no output has, and that the rewriting leaves as it is. -/
def DirName (name : Str) : Prop :=
  '\n' ∉ name ∧ ¬ '.' :: EncodingItem.mp4 <:+ name

/-- Below `root`, in view of a scan, there are only readable files and directories with such names. -/
def Ordinary (t : Tree) (root : Loc) : Prop :=
  ∀ dirs name node, t.node? (root ++ dirs ++ [name]) = some node →
    (∀ x ∈ dirs ++ [name], x.head? ≠ some '.') →
    node = .file true ∨ ∃ w, node = .dir w ∧ DirName name

/-- From `t` to `u` nothing is lost, and what is new is readable files and directories with such
names. -/
abbrev Fills (t u : Tree) : Prop :=
  t.Grows (fun loc node => node = .file true ∨
    ∃ dir name, loc = dir ++ [name] ∧ node = .dir true ∧ DirName name) u

namespace Fills

variable {t u v : Tree}

theorem refl (t : Tree) : Fills t t :=
  Tree.Grows.refl t _

theorem links (h : Fills t u) (loc : Loc) (target : Str)
    (hnode : u.node? loc = some (.link target)) : t.node? loc = some (.link target) := by
  rcases h.new loc _ hnode with hold | hfile | ⟨_, _, _, hdir, _⟩
  · exact hold
  · cases hfile
  · cases hdir

theorem ordinary (h : Fills t u) {root : Loc} (hroot : Ordinary t root) : Ordinary u root := by
  intro dirs name node hnode hshown
  rcases h.new _ node hnode with hold | hfile | ⟨dir, name', hloc, hdir, hname⟩
  · exact hroot dirs name node hold hshown
  · exact Or.inl hfile
  · have hsame : name = name' := by simpa using (List.append_inj' hloc rfl).2
    exact Or.inr ⟨true, hdir, hsame ▸ hname⟩

end Fills

/-! ## Engines that serve a flow -/

/-- The library is read as it is written and is the directory at one place; the target is the other
place, or will be, by names that are no links. -/
structure Serves (t : Tree) (library target : Str) (flow : Flow) : Prop where
  plain : Glob.Plain library
  root : t.stat library = some flow.root
  isDir : t.isDir flow.root = true
  place : Tree.origin t.cwd (File.join [target, []]) ++
    (File.names target).filter (fun name => name ≠ ['.']) = flow.target
  way : t.Unlinked (Tree.origin t.cwd (File.join [target, []])) (File.names target)
  names : ∀ name ∈ File.names target, DirName name
  scanned : Ordinary t flow.root
  filled : Ordinary t flow.target

/-- Filling does no harm. -/
theorem Serves.mono {t u : Tree} {library target : Str} {flow : Flow}
    (h : Serves t library target flow) (hfills : Fills t u) : Serves u library target flow where
  plain := h.plain
  root := hfills.keeps.stat h.root
  isDir := hfills.keeps.isDir h.isDir
  place := by
    rw [hfills.cwd]
    exact h.place
  way := by
    rw [hfills.cwd]
    exact h.way.mono hfills.links
  names := h.names
  scanned := hfills.ordinary h.scanned
  filled := hfills.ordinary h.filled

/-- The item of a video. -/
def itemOf (library target : Str) (rel : List Str) : EncodingItem :=
  { library := library, subpath := ['/'].intercalate rel, target := target }

section Item

variable {library target : Str} {rel out : List Str} (hout : Converts rel out)
  (hdirs : ∀ x ∈ rel.dropLast, DirName x)

include hout hdirs

theorem subpathTarget_itemOf : (itemOf library target rel).subpathTarget = ['/'].intercalate out := by
  rcases hout with ⟨dirs, name, rfl, _, _, rfl⟩
  have hbreak : ∀ x ∈ dirs, '\n' ∉ x := fun x hx => (hdirs x (by simpa using hx)).1
  exact EncodingItem.subpathAsTargetExt_dirs hbreak name

/-- The target path of an item has the names of the target, then those of the output. -/
theorem names_targetPath : File.names (itemOf library target rel).targetPath =
    File.names target ++ out := by
  have hsub := @subpathTarget_itemOf library target rel out hout hdirs
  have hpath : (itemOf library target rel).targetPath =
      File.join [target, (itemOf library target rel).subpathTarget] := rfl
  rw [hpath, hsub, File.join_pair, File.names_join2, names_intercalate,
    flatMap_names fun x hx => (hout.shown x hx).1]

theorem mp4_suffix_targetPath :
    '.' :: EncodingItem.mp4 <:+ (itemOf library target rel).targetPath := by
  have hsub := @subpathTarget_itemOf library target rel out hout hdirs
  have hpath : (itemOf library target rel).targetPath =
      File.join2 target (itemOf library target rel).subpathTarget := rfl
  rw [hpath]
  refine List.IsSuffix.trans ?_ (File.suffix_join2 _ _)
  rcases hout.last with ⟨dirs, name, rfl, hmp4⟩
  rw [hsub]
  refine hmp4.trans ?_
  by_cases hnil : dirs = []
  · simp [hnil]
  · rw [Glob.intercalate_concat hnil]
    exact (List.suffix_cons _ _).trans (List.suffix_append _ _)

/-- It ends in the last of them, and in no separator. -/
theorem targetPath_last : (itemOf library target rel).targetPath ≠ [] ∧
    (itemOf library target rel).targetPath.getLast? ≠ some '/' ∧
    out = out.dropLast ++ [File.basename (itemOf library target rel).targetPath] ∧
    File.names (File.upToName (itemOf library target rel).targetPath) =
      File.names target ++ out.dropLast := by
  have hnames := @names_targetPath library target rel out hout hdirs
  have hmp4 := @mp4_suffix_targetPath library target rel out hout hdirs
  have hne : (itemOf library target rel).targetPath ≠ [] := by
    intro hnil
    rw [hnil] at hmp4
    exact absurd (List.suffix_nil.1 hmp4) (by simp)
  have hsep : (itemOf library target rel).targetPath.getLast? ≠ some '/' := by
    rcases hmp4 with ⟨front, hfront⟩
    rw [← hfront, List.getLast?_append_of_ne_nil _ (by simp)]
    decide
  have hbase := Tree.basename_ne_nil hne hsep
  have hparts := File.names_eq_append_basename hbase
  rcases hout.last with ⟨dirs, name, rfl, _⟩
  rw [hnames, ← List.append_assoc] at hparts
  have hsplit := List.append_inj' hparts rfl
  have hname : name = File.basename (itemOf library target rel).targetPath := by
    simpa using hsplit.2
  refine ⟨hne, hsep, ?_, ?_⟩
  · rw [List.dropLast_concat, ← hname]
  · rw [List.dropLast_concat, hsplit.1]

omit hdirs in
theorem shown_dropLast : ∀ x ∈ out.dropLast, Shown x :=
  fun x hx => hout.shown x (List.mem_of_mem_dropLast hx)

theorem dirName_dropLast : ∀ x ∈ out.dropLast, DirName x := by
  rcases hout with ⟨dirs, name, rfl, _, _, rfl⟩
  simpa using hdirs

end Item

/-! ## The tree in a turn -/

theorem origin_targetPath (cwd : Loc) (item : EncodingItem) :
    Tree.origin cwd item.targetPath = Tree.origin cwd (File.join [item.target, []]) := by
  rw [EncodingItem.targetPath, EncodingItem.buildTargetPath, File.join_pair, File.join_pair]
  simp only [Tree.origin, File.isAbsolute, File.head?_join2]

/-- What stands at a place that a scan would see is no link. -/
theorem Ordinary.not_link {t : Tree} {root : Loc} (h : Ordinary t root) {rel : List Str}
    (hne : rel ≠ []) (hshown : ∀ x ∈ rel, Shown x) (link : Str) :
    t.node? (root ++ rel) ≠ some (.link link) := by
  rcases List.eq_nil_or_concat' rel with rfl | ⟨dirs, name, rfl⟩
  · exact absurd rfl hne
  · intro hnode
    rw [← List.append_assoc] at hnode
    rcases h dirs name _ hnode (fun x hx => (hshown x hx).2) with hfile | ⟨w, hdir, _⟩
    · cases hfile
    · cases hdir

section Tree

variable {t t' : Tree} {library target : Str} {flow : Flow} {rel out : List Str}
  (hserves : Serves t library target flow) (hout : Converts rel out)
  (hdirs : ∀ x ∈ rel.dropLast, DirName x)

include hserves hout hdirs

/-- The directory of an output is made in the target, and nothing else is. -/
theorem fills_of_mkdir_p
    (h : t.mkdir_p (File.dirname (itemOf library target rel).targetPath) = .ok t') :
    Fills t t' ∧ filesOf t' = filesOf t ∧
      t'.stat (File.dirname (itemOf library target rel).targetPath) =
        some (flow.target ++ out.dropLast) ∧
      t'.isDir (flow.target ++ out.dropLast) = true := by
  have hkept := Tree.node_of_mkdir_p (Or.inl h)
  have hfile := @Tree.file_of_mkdir_p t t' _ (Or.inl h)
  have horigin := origin_targetPath t.cwd (itemOf library target rel)
  have hlast := @targetPath_last library target rel out hout hdirs
  have hshown := shown_dropLast hout
  -- no link on the way: not in the target path, and not below the target
  have hway : t.Unlinked (Tree.origin t.cwd (itemOf library target rel).targetPath)
      (File.names target ++ out.dropLast) := by
    rw [Tree.unlinked_append, horigin]
    refine ⟨hserves.way, ?_⟩
    have hplace : Tree.origin t.cwd (File.join [(itemOf library target rel).target, []]) ++
        (File.names target).filter (fun name => name ≠ ['.']) = flow.target := hserves.place
    rw [hplace]
    refine Tree.unlinked_of_names (fun x hx => (hshown x hx).1) ?_
    intro front hne hfront link
    exact hserves.filled.not_link hne (fun x hx => hshown x (hfront.subset hx)) link
  rw [Tree.mkdir_p_dirname, hlast.2.2.2] at h
  cases hmake : t.mkdirs (Tree.origin t.cwd (itemOf library target rel).targetPath)
      (File.names target ++ out.dropLast) with
  | error e => simp [hmake, Except.map] at h
  | ok r =>
      rcases r with ⟨made, dir⟩
      have hmade : made = t' := by simpa [hmake, Except.map] using h
      subst hmade
      have hvalid : ∀ x ∈ File.names target ++ out.dropLast,
          ValidName x ∨ x = ['.'] ∨ x = ['.', '.'] := by
        intro x hx
        rcases List.mem_append.1 hx with hx | hx
        · exact Tree.validName_or_dots hx
        · exact Or.inl (hshown x hx).1
      have hcur := Tree.isDir_origin t (itemOf library target rel).targetPath
      have hspec := Tree.mkdirs_spec hvalid hcur hmake
      -- so the names are the way
      have hplace : dir = flow.target ++ out.dropLast := by
        rw [Tree.place_of_mkdirs hvalid hway hcur hmake, List.filter_append, ← List.append_assoc,
          horigin]
        have hfilter : out.dropLast.filter (fun name => name ≠ ['.']) = out.dropLast := by
          rw [List.filter_eq_self]
          intro x hx
          simpa using (hshown x hx).1.2.2.1
        rw [hfilter]
        exact congrArg (· ++ out.dropLast) hserves.place
      subst hplace
      refine ⟨⟨hkept.1, hkept.2.1, fun _ _ hnode => hkept.2.2 hnode, ?_⟩, ?_, ?_, hspec.2.1⟩
      · intro loc node hnode
        rcases Tree.of_node_mkdirs hmake hnode with hold | ⟨front, name, hname, hloc, hdir⟩
        · exact Or.inl hold
        · refine Or.inr (Or.inr ⟨front, name, hloc, hdir, ?_⟩)
          rcases List.mem_append.1 hname with hname | hname
          · exact hserves.names name hname
          · exact dirName_dropLast hout hdirs name hname
      · exact Set.ext fun loc => ⟨fun h => hfile h, fun h => hkept.2.2 h⟩
      · rw [Tree.stat_dirname, hlast.2.2.2, hkept.1]
        exact hspec.2.2

omit hdirs in
/-- What has the place of an output is a file: a directory is not named like one. -/
theorem file_of_output {node : Node} (h : t.node? (flow.target ++ out) = some node) :
    node = .file true := by
  have hshown := hout.shown
  rcases hout.last with ⟨dirs, name, rfl, hmp4⟩
  rw [← List.append_assoc] at h
  rcases hserves.filled dirs name node h (fun x hx => (hshown x hx).2) with hfile | ⟨w, _, _, hnot⟩
  · exact hfile
  · exact absurd hmp4 hnot

/-- With its directory there, the target path leads to the place of the output. -/
theorem stat_targetPath
    (hdirname : t.stat (File.dirname (itemOf library target rel).targetPath) =
      some (flow.target ++ out.dropLast))
    (hdir : t.isDir (flow.target ++ out.dropLast) = true) :
    t.stat (itemOf library target rel).targetPath =
      (t.node? (flow.target ++ out)).map fun _ => flow.target ++ out := by
  have hlast := @targetPath_last library target rel out hout hdirs
  have hbase := Tree.basename_ne_nil hlast.1 hlast.2.1
  have hname : Shown (File.basename (itemOf library target rel).targetPath) := by
    refine hout.shown _ ?_
    rw [hlast.2.2.1]
    simp
  have hloc : flow.target ++ out.dropLast ++
      [File.basename (itemOf library target rel).targetPath] = flow.target ++ out := by
    rw [List.append_assoc, ← hlast.2.2.1]
  have hlink : ∀ link, t.node? (flow.target ++ out.dropLast ++
      [File.basename (itemOf library target rel).targetPath]) ≠ some (.link link) := by
    intro link hnode
    rw [hloc] at hnode
    cases file_of_output hserves hout hnode
  rw [Tree.stat_of_dirname hbase hlast.2.1 hdirname, Tree.step_of_not_link hdir hname.1 hlink, hloc]

omit hserves in
/-- A missing output is made at its place. -/
theorem creates_targetPath
    (hdirname : t.stat (File.dirname (itemOf library target rel).targetPath) =
      some (flow.target ++ out.dropLast))
    (hdir : t.isDir (flow.target ++ out.dropLast) = true)
    (hnone : t.node? (flow.target ++ out) = none) :
    t.creates (itemOf library target rel).targetPath = some (flow.target ++ out) := by
  have hlast := @targetPath_last library target rel out hout hdirs
  have hname : ValidName (File.basename (itemOf library target rel).targetPath) := by
    refine (hout.shown _ ?_).1
    rw [hlast.2.2.1]
    simp
  have hloc : flow.target ++ out.dropLast ++
      [File.basename (itemOf library target rel).targetPath] = flow.target ++ out := by
    rw [List.append_assoc, ← hlast.2.2.1]
  rw [← hloc] at hnone ⊢
  exact Tree.creates_of_free hlast.2.1 hname hdirname hdir hnone

omit hserves hout hdirs in
/-- A new file changes nothing else. -/
theorem fills_of_touch {path : Str} {loc : Loc} (h : t.creates path = some loc) :
    Fills t (t.touch path) ∧ filesOf (t.touch path) = insert loc (filesOf t) := by
  have hspec := Tree.touch_spec h
  refine ⟨(Tree.grows_touch h).imp fun _ _ hnew => Or.inl hnew.1, ?_⟩
  ext loc'
  by_cases hsame : loc' = loc
  · simp [filesOf, hsame, hspec.2.1]
  · simp [filesOf, hsame, hspec.2.2.2.2 loc' hsame]

end Tree

/-! ## A turn and a pass -/

namespace Engine

variable {τ : Type} {engine : Engine τ}

section Turn

variable {library target : Str} {flow : Flow} (hwrites : Writes engine.transcoder)

include hwrites

/-- A completed turn adds the output of its video to the files, and calls the transcoder if and only
if the output was missing. -/
theorem fills_of_turn {rel out : List Str} {w w' : World τ}
    (hserves : Serves w.fs.tree library target flow) (hout : Converts rel out)
    (hdirs : ∀ x ∈ rel.dropLast, DirName x)
    (h : Turn engine (itemOf library target rel) w (.ok () w')) :
    Fills w.fs.tree w'.fs.tree ∧
      filesOf w'.fs.tree = insert (flow.target ++ out) (filesOf w.fs.tree) ∧
      (flow.target ++ out ∈ filesOf w.fs.tree → Quiet w w') ∧
      (flow.target ++ out ∉ filesOf w.fs.tree → Called w w') := by
  have hmakes : ∀ t, w.fs.tree.mkdir_p (File.dirname (itemOf library target rel).targetPath) = .ok t →
      t.stat (itemOf library target rel).targetPath = none →
      t.node? (flow.target ++ out) = none ∧
        t.creates (itemOf library target rel).targetPath = some (flow.target ++ out) := by
    intro t hdir hmissing
    rcases fills_of_mkdir_p hserves hout hdirs hdir with ⟨hfills, _, hdirname, hisDir⟩
    have hstat := stat_targetPath (hserves.mono hfills) hout hdirs hdirname hisDir
    have hnone : t.node? (flow.target ++ out) = none := by simpa [hmissing] using hstat
    exact ⟨hnone, creates_targetPath hout hdirs hdirname hisDir hnone⟩
  rcases (made_of_turn hwrites (fun t hdir hmissing => ⟨_, (hmakes t hdir hmissing).2⟩) h).1 with
    ⟨t, hdir, htree⟩
  rcases fills_of_mkdir_p hserves hout hdirs hdir with ⟨hfills, hfiles, hdirname, hisDir⟩
  have hserves' := hserves.mono hfills
  have hstat := stat_targetPath hserves' hout hdirs hdirname hisDir
  -- the second look decides, in the tree with the directory made
  cases hnode : t.node? (flow.target ++ out) with
  | some node =>
      have hfile := file_of_output hserves' hout hnode
      have hmem : flow.target ++ out ∈ filesOf w.fs.tree := by
        rw [← hfiles]
        have hmem : t.node? (flow.target ++ out) = some (.file true) := by rw [hnode, hfile]
        exact hmem
      have hthere : (t.stat (itemOf library target rel).targetPath).isSome = true := by
        simp [hstat, hnode]
      have hquiet := quiet_of_present hwrites hdir hthere h
      rw [Each.left_ok] at hquiet
      refine ⟨by rw [hquiet.2]; exact hfills, ?_, fun _ => hquiet.1, fun hnot => absurd hmem hnot⟩
      rw [hquiet.2, hfiles, Set.insert_eq_of_mem hmem]
  | none =>
      have hmissing : t.stat (itemOf library target rel).targetPath = none := by
        simp [hstat, hnode]
      have hnot : flow.target ++ out ∉ filesOf w.fs.tree := by
        rw [← hfiles]
        intro hmem
        have hfile : t.node? (flow.target ++ out) = some (.file true) := hmem
        simp [hnode] at hfile
      -- what is missing there was missing at the first look
      have hnone : w.fs.tree.stat (itemOf library target rel).targetPath = none := by
        cases hold : w.fs.tree.stat (itemOf library target rel).targetPath with
        | none => rfl
        | some loc =>
            have hkept := hfills.keeps.stat hold
            rw [hmissing] at hkept
            cases hkept
      rw [hmissing, Option.isSome_none, if_neg Bool.false_ne_true] at htree
      have htouch := fills_of_touch (hmakes t hdir hmissing).2
      have hcalled := called_of_missing hnone hdir (by simp [hmissing]) h
      rw [Each.left_ok] at hcalled
      refine ⟨by rw [htree]; exact hfills.trans htouch.1, ?_, fun hmem => absurd hmem hnot,
        fun _ => hcalled⟩
      rw [htree, htouch.2, hfiles]

/-- The outputs of the videos `rels`. -/
def outputsOf (flow : Flow) (rels : List (List Str)) : Set Loc :=
  {b | ∃ rel ∈ rels, ∃ out, Converts rel out ∧ b = flow.target ++ out}

/-- A completed loop adds the outputs of its videos, and calls the transcoder if and only if one of
them was missing. -/
theorem fills_of_loop {rels : List (List Str)} :
    ∀ {w w' : World τ}, Serves w.fs.tree library target flow →
      (∀ rel ∈ rels, (∃ out, Converts rel out) ∧ ∀ x ∈ rel.dropLast, DirName x) →
      (rels.map (itemOf library target)).forM engine.turn w = .ok () w' →
      Fills w.fs.tree w'.fs.tree ∧
        filesOf w'.fs.tree = filesOf w.fs.tree ∪ outputsOf flow rels ∧
        (outputsOf flow rels ⊆ filesOf w.fs.tree → Quiet w w') ∧
        (¬ outputsOf flow rels ⊆ filesOf w.fs.tree → Called w w') := by
  induction rels with
  | nil =>
      intro w w' _ _ h
      cases h
      have hnil : outputsOf flow [] = ∅ := by simp [outputsOf]
      refine ⟨Fills.refl _, by simp [hnil], fun _ => ⟨⟨[], by simp, by simp⟩, fun _ _ h => h⟩, ?_⟩
      intro hnot
      exact absurd (by simp [hnil]) hnot
  | cons rel rels ih =>
      intro w w' hserves hrels h
      rcases hrels rel (by simp) with ⟨⟨out, hout⟩, hdirs⟩
      have hcons : outputsOf flow (rel :: rels) =
          insert (flow.target ++ out) (outputsOf flow rels) := by
        ext b
        constructor
        · rintro ⟨rel', hrel', out', hout', rfl⟩
          rcases List.mem_cons.1 hrel' with rfl | hrel'
          · rw [hout'.unique hout]
            exact Set.mem_insert _ _
          · exact Or.inr ⟨rel', hrel', out', hout', rfl⟩
        · rintro (rfl | ⟨rel', hrel', out', hout', rfl⟩)
          · exact ⟨rel, by simp, out, hout, rfl⟩
          · exact ⟨rel', by simp [hrel'], out', hout', rfl⟩
      rw [List.map_cons, Each.forM_cons] at h
      have hspec := turn_spec engine (itemOf library target rel) w
      cases hturn : engine.turn (itemOf library target rel) w with
      | error e w₁ => simp [hturn] at h
      | ok u w₁ =>
          rw [hturn] at h hspec
          rcases fills_of_turn hwrites hserves hout hdirs hspec with ⟨hfills, hfiles, hquiet, hcalled⟩
          rcases ih (hserves.mono hfills) (fun x hx => hrels x (by simp [hx])) h with
            ⟨hfills', hfiles', hquiet', hcalled'⟩
          refine ⟨hfills.trans hfills', ?_, ?_, ?_⟩
          · rw [hfiles', hfiles, hcons, Set.insert_union, Set.union_insert]
          · intro hsub
            rw [hcons, Set.insert_subset_iff] at hsub
            refine (hquiet hsub.1).trans (hquiet' ?_)
            rw [hfiles]
            exact hsub.2.trans (Set.subset_insert _ _)
          · intro hnot
            -- the missing output is that of a later video, or this one
            by_cases hmem : flow.target ++ out ∈ filesOf w.fs.tree
            · have hrest : ¬ outputsOf flow rels ⊆ filesOf w₁.fs.tree := by
                rw [hfiles, Set.insert_eq_of_mem hmem]
                intro hsub
                apply hnot
                rw [hcons, Set.insert_subset_iff]
                exact ⟨hmem, hsub⟩
              rcases (hquiet hmem).noCall with ⟨events, hevents, _⟩
              exact (hcalled' hrest).of_right ⟨events, hevents⟩
            · have hrest : (rels.map (itemOf library target)).forM engine.turn w₁ = .ok () w' := h
              have hgrow := events_loop engine (rels.map (itemOf library target)) w₁
              rw [hrest, Each.left_ok] at hgrow
              exact (hcalled hmem).of_left hgrow

end Turn

/-! ## The files of a pass -/

theorem dirName_of_isDir {t : Tree} {root : Loc} (h : Ordinary t root) {dirs : List Str}
    (hdots : ∀ x ∈ dirs, x.head? ≠ some '.') (hdir : t.isDir (root ++ dirs) = true) :
    ∀ x ∈ dirs, DirName x := by
  induction dirs using List.reverseRecOn with
  | nil => simp
  | append_singleton dirs name ih =>
      rw [← List.append_assoc] at hdir
      rcases Tree.isDir_iff.1 hdir with ⟨w, hnode⟩
      have hfront := ih (fun x hx => hdots x (by simp [hx])) (Tree.isDir_of_node? hnode)
      intro x hx
      rcases List.mem_append.1 hx with hx | hx
      · exact hfront x hx
      · rcases h dirs name _ hnode hdots with hfile | ⟨w', _, hname⟩
        · cases hfile
        · rw [List.mem_singleton.1 hx]
          exact hname

/-- Where a scan sees no links, a video is a file that has an output. -/
theorem video_iff {t : Tree} {root : Loc} (h : Ordinary t root) {rel : List Str} :
    Video t root rel ↔ root ++ rel ∈ filesOf t ∧ ∃ out, Converts rel out := by
  have hreached : ∀ dirs name, (∀ x ∈ dirs ++ [name], x.head? ≠ some '.') →
      (reached t (root ++ dirs) name = some (.file true) ↔
        t.node? (root ++ dirs ++ [name]) = some (.file true)) := by
    intro dirs name hdots
    rw [reached]
    cases hnode : t.node? (root ++ dirs ++ [name]) with
    | none => simp
    | some node =>
        cases node with
        | link target =>
            rcases h dirs name _ hnode hdots with hfile | ⟨w, hdir, _⟩
            · cases hfile
            · cases hdir
        | _ => rfl
  constructor
  · rintro ⟨dirs, name, rfl, hdots, hfile, hext⟩
    have hnode := (hreached dirs name hdots).1 hfile
    rw [List.append_assoc] at hnode
    refine ⟨hnode, _, dirs, name, rfl, ?_, hext, rfl⟩
    intro x hx
    exact ⟨Tree.validName_of_node? hnode x (List.mem_append.2 (Or.inr hx)), hdots x hx⟩
  · rintro ⟨hfile, out, dirs, name, rfl, hshown, hext, _⟩
    have hdots : ∀ x ∈ dirs ++ [name], x.head? ≠ some '.' := fun x hx => (hshown x hx).2
    have hnode : t.node? (root ++ dirs ++ [name]) = some (.file true) := by
      rw [List.append_assoc]
      exact hfile
    exact ⟨dirs, name, rfl, hdots, (hreached dirs name hdots).2 hnode, hext⟩

/-- The directories on the way to a video have such names. -/
theorem dirName_of_converts {t : Tree} {root : Loc} (h : Ordinary t root) {rel out : List Str}
    (hfile : root ++ rel ∈ filesOf t) (hout : Converts rel out) : ∀ x ∈ rel.dropLast, DirName x := by
  rcases hout with ⟨dirs, name, rfl, hshown, _, _⟩
  have hnode : t.node? (root ++ dirs ++ [name]) = some (.file true) := by
    rw [List.append_assoc]
    exact hfile
  rw [List.dropLast_concat]
  exact dirName_of_isDir h (fun x hx => (hshown x (by simp [hx])).2) (Tree.isDir_of_node? hnode)

theorem fills_of_pass (hwrites : Writes engine.transcoder) {library target : Str} {flow : Flow}
    {w w' : World τ} (hserves : Serves w.fs.tree library target flow)
    (hqueue : w.state.toEncodeQueue = []) (hrun : engine.doEncode library target w = .ok () w') :
    Fills w.fs.tree w'.fs.tree ∧
      filesOf w'.fs.tree = Spread.spread flow.Makes (filesOf w.fs.tree) ∧
      (Spread.Closed flow.Makes (filesOf w.fs.tree) → Quiet w w') ∧
      (¬ Spread.Closed flow.Makes (filesOf w.fs.tree) → Called w w') := by
  rcases items_plain hserves.plain hserves.root hserves.isDir target with ⟨rels, _, hmem, hitems⟩
  have hrels : ∀ rel ∈ rels, (∃ out, Converts rel out) ∧ ∀ x ∈ rel.dropLast, DirName x := by
    intro rel hrel
    rcases (video_iff hserves.scanned).1 ((hmem rel).1 hrel) with ⟨hfile, out, hout⟩
    exact ⟨⟨out, hout⟩, dirName_of_converts hserves.scanned hfile hout⟩
  have houtputs : outputsOf flow rels = {b | ∃ a ∈ filesOf w.fs.tree, flow.Makes a b} := by
    ext b
    constructor
    · rintro ⟨rel, hrel, out, hout, rfl⟩
      have hfile := ((video_iff hserves.scanned).1 ((hmem rel).1 hrel)).1
      exact ⟨_, hfile, rel, out, rfl, hout, rfl⟩
    · rintro ⟨_, hfile, rel, out, rfl, hout, rfl⟩
      exact ⟨rel, (hmem rel).2 ((video_iff hserves.scanned).2 ⟨hfile, out, hout⟩), out, hout, rfl⟩
  have hclosed : outputsOf flow rels ⊆ filesOf w.fs.tree ↔
      Spread.Closed flow.Makes (filesOf w.fs.tree) := by
    rw [houtputs]
    constructor
    · intro hsub a ha b hab
      exact hsub ⟨a, ha, hab⟩
    · rintro hclosed b ⟨a, ha, hab⟩
      exact hclosed a ha b hab
  rw [doEncode_of_empty engine hqueue, hitems] at hrun
  rcases fills_of_loop hwrites hserves hrels hrun with ⟨hfills, hfiles, hquiet, hcalled⟩
  rw [hclosed] at hquiet hcalled
  rw [houtputs] at hfiles
  exact ⟨hfills, hfiles, hquiet, hcalled⟩

end Engine

namespace Sample

open Engine

/-- From the working directory, which is the root, to a directory in it. -/
def flow (target : Str) : Flow where
  root := []
  target := [target]

theorem node_tree {loc : Loc} {node : Node} (h : tree.node? loc = some node) :
    loc = [] ∨ node = .file true := by
  rcases Tree.of_node_put h with hold | ⟨_, hnew⟩
  · left
    by_contra hne
    simp [Tree.node?, hne, Tree.empty] at hold
  · exact Or.inr hnew

theorem serves_tree {target : Str} (hname : ValidName target) (hdir : DirName target) :
    Serves tree ".".toList target (flow target) := by
  have hnames : File.names target = [target] := File.names_of_no_sep hname.1 hname.2.1
  have horigin : Tree.origin tree.cwd (File.join [target, []]) = [] := by
    unfold Tree.origin
    split <;> rfl
  have hordinary : ∀ root, Ordinary tree root := by
    intro root dirs name node hnode _
    rcases node_tree hnode with hnil | hfile
    · simp at hnil
    · exact Or.inl hfile
  refine ⟨by decide, rfl, rfl, ?_, ?_, ?_, hordinary _, hordinary _⟩
  · rw [horigin, hnames]
    simp [flow, hname.2.2.1]
  · rw [horigin, hnames, Tree.Unlinked, if_neg hname.2.2.1]
    refine ⟨hname.2.2.2, ?_, trivial⟩
    intro link hnode
    rcases node_tree hnode with hnil | hfile
    · simp at hnil
    · cases hfile
  · rw [hnames]
    simpa using hdir

theorem video_tree (target : Str) : ∃ a ∈ filesOf tree, ∃ b, (flow target).Makes a b := by
  have hfile : tree.node? ["a.avi".toList] = some (.file true) := by decide
  have hout : Converts ["a.avi".toList] ["a.mp4".toList] := by
    refine ⟨[], "a.avi".toList, rfl, ?_, by decide, by decide⟩
    simp [Shown, ValidName]
  exact ⟨["a.avi".toList], hfile, [target, "a.mp4".toList], _, _, rfl, hout, rfl⟩

/-! ### More than one library -/

theorem of_node_puts {nodes : List (Loc × Str × Node)} {loc : Loc} {node : Node} :
    ∀ {t : Tree}, (puts t nodes).node? loc = some node →
      t.node? loc = some node ∨ ∃ new ∈ nodes, loc = new.1 ++ [new.2.1] ∧ node = new.2.2 := by
  induction nodes with
  | nil => exact Or.inl
  | cons first nodes ih =>
      intro t h
      rcases ih h with hold | ⟨new, hnew, heq⟩
      · rcases Tree.of_node_put hold with hold | heq
        · exact Or.inl hold
        · exact Or.inr ⟨first, by simp, heq⟩
      · exact Or.inr ⟨new, by simp [hnew], heq⟩

/-- Two videos in `v` and one in `w`; there is nothing in `t` yet. -/
def shelved : List (Loc × Str × Node) :=
  [([], "v".toList, .dir true), ([], "w".toList, .dir true), ([], "t".toList, .dir true),
    (["v".toList], "a.avi".toList, .file true), (["v".toList], "b.mov".toList, .file true),
    (["w".toList], "c.wmv".toList, .file true)]

def shelves : Tree :=
  puts (Tree.empty 8) shelved

/-- From one of the directories to another one. -/
def between (key : Str × Str) : Flow where
  root := [key.1]
  target := [key.2]

theorem node_shelves {loc : Loc} {node : Node} (h : shelves.node? loc = some node) :
    loc = [] ∨ ∃ new ∈ shelved, loc = new.1 ++ [new.2.1] ∧ node = new.2.2 := by
  rcases of_node_puts h with hold | hnew
  · left
    by_contra hne
    simp [Tree.node?, hne, Tree.empty] at hold
  · exact Or.inr hnew

theorem ordinary_shelves (root : Loc) : Ordinary shelves root := by
  have hall : ∀ new ∈ shelved, new.2.2 = .file true ∨
      new.2.2 = .dir true ∧ '\n' ∉ new.2.1 ∧ ¬ '.' :: EncodingItem.mp4 <:+ new.2.1 := by
    decide
  intro dirs name node hnode _
  rcases node_shelves hnode with hnil | ⟨new, hnew, hloc, rfl⟩
  · simp at hnil
  · rcases hall new hnew with hfile | ⟨hdir, hname⟩
    · exact Or.inl hfile
    · have hlast : name = new.2.1 := by simpa using (List.append_inj' hloc rfl).2
      exact Or.inr ⟨true, hdir, hlast ▸ hname⟩

theorem serves_shelves {library target : Str} (hlibrary : library ∈ ["v".toList, "w".toList])
    (htarget : target ∈ ["w".toList, "t".toList]) :
    Serves shelves library target (between (library, target)) := by
  have hall : ∀ library ∈ ["v".toList, "w".toList], Glob.Plain library ∧
      shelves.stat library = some [library] ∧ shelves.isDir [library] = true := by
    decide
  have hplaces : ∀ target ∈ ["w".toList, "t".toList], target ≠ ['.'] ∧ target ≠ ['.', '.'] ∧
      File.names target = [target] ∧ shelves.isDir [target] = true ∧
      '\n' ∉ target ∧ ¬ '.' :: EncodingItem.mp4 <:+ target := by
    decide
  have horigin : Tree.origin shelves.cwd (File.join [target, []]) = [] := by
    unfold Tree.origin
    split <;> rfl
  rcases hall library hlibrary with ⟨hplain, hroot, hdir⟩
  rcases hplaces target htarget with ⟨hdot, hdots, hnames, hthere, hname⟩
  refine ⟨hplain, hroot, hdir, ?_, ?_, ?_, ordinary_shelves _, ordinary_shelves _⟩
  · rw [horigin, hnames]
    simp [between, hdot]
  · rw [horigin, hnames, Tree.Unlinked, if_neg hdot]
    refine ⟨hdots, ?_, trivial⟩
    intro link hnode
    rcases Tree.isDir_iff.1 hthere with ⟨w, hdir⟩
    rw [List.nil_append, hdir] at hnode
    cases hnode
  · rw [hnames]
    intro name hmem
    rw [List.mem_singleton.1 hmem]
    exact hname

end Sample

end Yikes
