import Yikes.Ruby.Loops
import Yikes.Ruby.Ways

/-!
# Kept — a file that one process writes and a later one reads

`Leads t names dir` says that the names lead from the root to a directory in which files can be made.
Neither directories that are made nor another working directory change that (`Leads.mono`,
`Leads.chdir`), so a file of that directory, given by an absolute path, can be written
(`openWrite_kept`) and is read back wherever the next process is started (`read_kept`).

A real path stays what it is when the tree grows (`realpath_kept`), and its text leads to its place
without links (`stat_text`, `unlinked_of_isReal`).
-/

namespace Ruby

open File

namespace Tree

variable {t u : Tree}

theorem sameNodes_chdir (t : Tree) (cwd : Loc) : SameNodes t (t.chdir cwd) :=
  fun loc => Or.inl (node?_chdir t cwd loc)

@[simp] theorem linkDepth_chdir (t : Tree) (cwd : Loc) : (t.chdir cwd).linkDepth = t.linkDepth := by
  unfold chdir
  split <;> rfl

theorem cwd_chdir {cwd : Loc} (h : t.isDir cwd = true) : (t.chdir cwd).cwd = cwd := by
  simp [chdir, h]

theorem links_chdir (t : Tree) (cwd : Loc) : (t.chdir cwd).links = t.links := by
  unfold links
  rw [linkDepth_chdir, follow_congr (sameNodes_chdir t cwd)]

theorem walk_chdir (t : Tree) (cwd : Loc) (f : Loc → Str → Option Loc) (cur : Loc)
    (todo : List Str) : (t.chdir cwd).walk f cur todo = t.walk f cur todo := by
  have hstep : (t.chdir cwd).step f = t.step f := by
    funext cur' name
    exact step_congr (sameNodes_chdir t cwd) rfl cur' name
  rw [walk, walk, hstep]

theorem isDir_chdir (t : Tree) (cwd loc : Loc) : (t.chdir cwd).isDir loc = t.isDir loc := by
  simp [isDir, node?_chdir]

/-! ## A directory and what leads to it -/

structure Leads (t : Tree) (names : List Str) (dir : Loc) : Prop where
  way : t.walk t.links [] names = some dir
  writable : t.node? dir = some (.dir true)

namespace Leads

variable {folder : List Str} {dir : Loc}

theorem isDir (h : Leads t folder dir) : t.isDir dir = true :=
  isDir_iff.2 ⟨true, h.writable⟩

theorem mono (h : Leads t folder dir) (hk : Keeps t u) : Leads u folder dir := by
  refine ⟨hk.walk h.way, ?_⟩
  rcases hk.node dir _ h.writable with hkept | ⟨target, hlink, _⟩
  · exact hkept
  · cases hlink

theorem chdir (h : Leads t folder dir) (cwd : Loc) : Leads (t.chdir cwd) folder dir := by
  refine ⟨?_, ?_⟩
  · rw [links_chdir, walk_chdir]
    exact h.way
  · rw [node?_chdir]
    exact h.writable

end Leads

theorem origin_of_isAbsolute {path : Str} (h : isAbsolute path = true) (cwd : Loc) :
    origin cwd path = [] := by
  simp [origin, h]

theorem mkdir_p_of_leads {path : Str} {dir : Loc} (habs : isAbsolute path = true)
    (h : Leads t (names path) dir) : t.mkdir_p path = .ok t := by
  rw [mkdir_p, origin_of_isAbsolute habs, mkdirs_of_walk h.way h.isDir]
  rfl

theorem mkdirs_append (todo rest : List Str) :
    ∀ (t : Tree) (cur : Loc), t.mkdirs cur (todo ++ rest) =
      match t.mkdirs cur todo with
      | .error e => .error e
      | .ok (u, next) => u.mkdirs next rest := by
  induction todo with
  | nil =>
      intro t cur
      rfl
  | cons name todo ih =>
      intro t cur
      rw [List.cons_append, mkdirs, mkdirs]
      cases hstep : t.mkdirStep cur name with
      | error e => rfl
      | ok r => exact ih r.1 r.2

end Tree

/-! ## Files of the directory -/

section File

variable {folder name : Str}

theorem isAbsolute_join_file (habs : isAbsolute folder = true) :
    isAbsolute (join2 folder name) = true := by
  have hhead : folder.head? = some '/' := by simpa [isAbsolute] using habs
  simp [isAbsolute, head?_join2, hhead]

variable (hname : ValidName name)

include hname

theorem names_join_file : names (join2 folder name) = names folder ++ [name] := by
  rw [names_join2, names_of_no_sep hname.1 hname.2.1]

theorem getLast?_join_file : (join2 folder name).getLast? ≠ some '/' := by
  rcases suffix_join2 folder name with ⟨front, hfront⟩
  rw [← hfront, List.getLast?_append_of_ne_nil _ hname.1]
  exact fun hlast => hname.2.1 (List.mem_of_getLast? hlast)

theorem join_file_ne_nil : join2 folder name ≠ [] := by
  rcases suffix_join2 folder name with ⟨front, hfront⟩
  rw [← hfront]
  simp [hname.1]

/-- The path is that of the directory, then the name. -/
theorem parts_join_file :
    names (upToName (join2 folder name)) = names folder ∧ basename (join2 folder name) = name := by
  have hbase := Tree.basename_ne_nil (@join_file_ne_nil folder name hname)
    (getLast?_join_file hname)
  have hparts := names_eq_append_basename hbase
  rw [names_join_file hname] at hparts
  have hsame := List.append_inj' hparts rfl
  exact ⟨hsame.1.symm, (List.singleton_inj.1 hsame.2).symm⟩

variable {fs : FileSystem} {dir : Loc} (habs : isAbsolute folder = true)
  (hleads : fs.tree.Leads (names folder) dir)

include habs hleads

theorem stat_dirname_join_file : fs.tree.stat (dirname (join2 folder name)) = some dir := by
  rw [Tree.stat_dirname, Tree.origin_of_isAbsolute (isAbsolute_join_file habs),
    (parts_join_file hname).1]
  exact hleads.way

theorem stat_join_file :
    fs.tree.stat (join2 folder name) = fs.tree.step fs.tree.links dir name := by
  have hparts := @parts_join_file folder name hname
  have hbase : basename (join2 folder name) ≠ [] := by
    rw [hparts.2]
    exact hname.1
  have hstat := Tree.stat_of_dirname hbase (getLast?_join_file hname)
    (stat_dirname_join_file hname habs hleads)
  rwa [hparts.2] at hstat

theorem stat_join_file_of_none (hnone : fs.tree.node? (dir ++ [name]) = none) :
    fs.tree.stat (join2 folder name) = none := by
  rw [stat_join_file hname habs hleads]
  simp [Tree.step, hleads.isDir, hname.2.2.1, hname.2.2.2, hnone]

theorem stat_join_file_of_file {r : Bool} (hfile : fs.tree.node? (dir ++ [name]) = some (.file r)) :
    fs.tree.stat (join2 folder name) = some (dir ++ [name]) := by
  rw [stat_join_file hname habs hleads]
  simp [Tree.step, hleads.isDir, hname.2.2.1, hname.2.2.2, hfile]

/-- Beside the name nothing is made. -/
theorem mkdir_p_join_file :
    fs.tree.mkdir_p (join2 folder name) =
      match fs.tree.mkdirStep dir name with
      | .error e => .error (e, fs.tree)
      | .ok (t, _) => .ok t := by
  rw [Tree.mkdir_p, Tree.origin_of_isAbsolute (isAbsolute_join_file habs), names_join_file hname,
    Tree.mkdirs_append, Tree.mkdirs_of_walk hleads.way hleads.isDir]
  simp only [Tree.mkdirs]
  cases fs.tree.mkdirStep dir name <;> rfl

theorem read_kept_none (hnone : fs.tree.node? (dir ++ [name]) = none) :
    fs.read (join2 folder name) = .error .ENOENT := by
  exact FileSystem.read_of_none (stat_join_file_of_none hname habs hleads hnone)

theorem read_kept (hfile : fs.tree.node? (dir ++ [name]) = some (.file true)) :
    fs.read (join2 folder name) = .ok (fs.data (dir ++ [name])) := by
  exact FileSystem.read_of_file (stat_join_file_of_file hname habs hleads hfile) hfile

/-- The file can be opened for writing, whether it was there or not. -/
theorem openWrite_kept (hplace : fs.tree.node? (dir ++ [name]) = none ∨
      fs.tree.node? (dir ++ [name]) = some (.file true)) :
    ∃ opened, fs.openWrite (join2 folder name) = .ok (dir ++ [name], opened) ∧
      Tree.Keeps fs.tree opened.tree ∧
      opened.tree.node? (dir ++ [name]) = some (.file true) := by
  have hdirname := stat_dirname_join_file hname habs hleads
  rcases hplace with hnone | hfile
  · have hstat := stat_join_file_of_none hname habs hleads hnone
    have hsep := @getLast?_join_file folder name hname
    have hparts := @parts_join_file folder name hname
    have hcreates : fs.tree.creates (join2 folder name) = some (dir ++ [name]) := by
      have hfree := Tree.creates_of_free hsep (by rwa [hparts.2]) hdirname hleads.isDir
        (by rwa [hparts.2])
      rwa [hparts.2] at hfree
    have hspec := FileSystem.write_spec [] hcreates
    have hwritable : fs.tree.isWritable dir = true := by simp [Tree.isWritable, hleads.writable]
    refine ⟨fs.write (join2 folder name) [], ?_, hspec.1, hspec.2.2⟩
    simp [FileSystem.openWrite, hstat, hcreates, hwritable]
  · have hstat := stat_join_file_of_file hname habs hleads hfile
    refine ⟨fs.fill (dir ++ [name]) [], ?_, Tree.Keeps.refl _, hfile⟩
    simp [FileSystem.openWrite, hstat, Tree.isDir, hfile, Node.isDir]

end File

/-! ## Real paths -/

namespace Tree

variable {t u : Tree}

theorem isAbsolute_text (loc : Loc) : isAbsolute (Loc.text loc) = true := by
  cases loc <;> rfl

theorem text_ne_nil (loc : Loc) : Loc.text loc ≠ [] := by
  cases loc <;> simp [Loc.text]

/-- The text of a directory leads to it, and no link is met on the way. -/
theorem stat_text {dir : Loc} (h : t.isDir dir = true) : t.stat (Loc.text dir) = some dir := by
  rcases isDir_iff.1 h with ⟨w, hnode⟩
  have hnames := validName_of_node? hnode
  refine stat_of_walk_names (text_ne_nil dir) ?_ h
  rw [Loc.origin_text, Loc.names_text hnames]
  exact walk_dirs hnames (by simpa using h)

theorem unlinked_of_isReal {loc : Loc} : t.IsReal loc → Unlinked t [] loc := by
  induction loc using List.reverseRecOn with
  | nil =>
      intro _
      trivial
  | append_singleton dir name ih =>
      rintro ⟨node, hnode, hlink⟩
      have hnames := validName_of_node? hnode
      have hname : ValidName name := hnames name (by simp)
      have hdir := ih (isReal_of_isDir (isDir_of_node? hnode))
      rw [unlinked_append, filter_text fun x hx => hnames x (by simp [hx]), List.nil_append, Unlinked,
        if_neg hname.2.2.1]
      refine ⟨hdir, hname.2.2.2, ?_, trivial⟩
      intro target htarget
      rw [htarget] at hnode
      exact hlink target (Option.some.inj hnode).symm

section Realpath

variable (hkept : ∀ loc node, t.node? loc = some node → u.node? loc = some node)

include hkept

theorem Finds.kept {cur loc : Loc} {todo : List Str} (h : t.Finds cur todo loc) :
    u.Finds cur todo loc := by
  induction h with
  | nil cur => exact .nil cur
  | dot _ ih => exact .dot ih
  | up _ ih => exact .up ih
  | down hdot hup hnode hlink _ ih => exact .down hdot hup (hkept _ _ hnode) hlink ih
  | link hdot hup hnode _ _ ihlink ihrest => exact .link hdot hup (hkept _ _ hnode) ihlink ihrest

/-- What a path resolves to is not changed by what is added to the tree. -/
theorem realpath_kept (hcwd : u.cwd = t.cwd) {path : Str} {loc : Loc} (h : t.realpath path = .ok loc) :
    u.realpath path = .ok loc := by
  rw [realpath_eq_ok_iff, hcwd]
  exact (realpath_eq_ok_iff.1 h).kept hkept

end Realpath

end Tree

end Ruby
