import Yikes.Ruby.Tree

/-!
# Files — the file operations of the program on a tree

* `Tree.mkdir_p` is `FileUtils.mkdir_p`: every name of the path is a directory, or becomes one;
* `FileSystem` adds the bytes of the files to a tree, with `exist?`, `size` and `write`;
* `Tree.stat_dirname` and `Tree.mkdir_p_dirname` put the directory of a path on the way of the path
  itself, so that a path that exists has its directory (`mkdir_p_of_stat`);
* `Tree.creates` is the place where a file is made for a path that leads nowhere, which is behind a dead
  link if the path ends in one.  Once the file is there, the path leads to it (`FileSystem.write_spec`).
-/

namespace Ruby
namespace Tree

open File

/-! ## Making directories -/

def isWritable (t : Tree) (loc : Loc) : Bool :=
  t.node? loc == some (.dir true)

/-- `mkdir(2)` of one name in the directory `cur`, unless there is a directory already. -/
def mkdirStep (t : Tree) (cur : Loc) (name : Str) : Except Errno (Tree × Loc) :=
  if name = ['.'] then .ok (t, cur)
  else if name = ['.', '.'] then .ok (t, cur.dropLast)
  else
    match t.node? (cur ++ [name]) with
    | none =>
        if t.isWritable cur then .ok (t.put cur name (.dir true), cur ++ [name])
        else .error .EACCES
    -- `mkdir(2)` fails with `EEXIST` on anything that is there; a directory is then let pass
    | some (.dir _) => .ok (t, cur ++ [name])
    | some (.link target) =>
        match t.links cur target with
        | some loc => if t.isDir loc then .ok (t, loc) else .error .EEXIST
        | none => .error .EEXIST
    | some _ => .error .EEXIST

/-- The directories made in front of a name that fails stay. -/
def mkdirs (t : Tree) (cur : Loc) : List Str → Except (Errno × Tree) (Tree × Loc)
  | [] => .ok (t, cur)
  | name :: todo =>
      match t.mkdirStep cur name with
      | .error e => .error (e, t)
      | .ok (t', next) => mkdirs t' next todo

/-- `FileUtils.mkdir_p`; when it fails, with the tree it leaves. -/
def mkdir_p (t : Tree) (path : Str) : Except (Errno × Tree) Tree :=
  (t.mkdirs (origin t.cwd path) (names path)).map Prod.fst

theorem isDir_dropLast {t : Tree} {loc : Loc} (h : t.isDir loc = true) :
    t.isDir loc.dropLast = true := by
  rcases lookup_dir_of_isDir h with rfl | ⟨w, hnode⟩
  · simp
  · rcases t.below loc _ hnode with ⟨dir, name, rfl, _, hdir⟩
    simp only [List.dropLast_concat]
    rcases hdir with rfl | ⟨w', hdir⟩
    · simp
    · by_cases hroot : dir = []
      · simp [hroot]
      · exact isDir_iff.2 ⟨w', by simp [node?, hroot, hdir]⟩

/-- What one step of `mkdir_p` does: the tree is kept, and the name then leads to a directory. -/
theorem mkdirStep_spec {t t' : Tree} {cur next : Loc} {name : Str} (hdir : t.isDir cur = true)
    (hname : ValidName name ∨ name = ['.'] ∨ name = ['.', '.'])
    (h : t.mkdirStep cur name = .ok (t', next)) :
    Keeps t t' ∧ t'.isDir next = true ∧ t'.step t'.links cur name = some next := by
  unfold mkdirStep at h
  split at h
  · next hdot =>
      cases h
      exact ⟨Keeps.refl t, hdir, by simp [step, hdir, hdot]⟩
  · next hdot =>
      split at h
      · next hup =>
          cases h
          exact ⟨Keeps.refl t, isDir_dropLast hdir, by simp [step, hdir, hup]⟩
      · next hup =>
          have hvalid : ValidName name := by
            rcases hname with hvalid | hdot' | hup'
            · exact hvalid
            · exact absurd hdot' hdot
            · exact absurd hup' hup
          split at h
          · next hnode =>
              split at h
              -- the name is new
              · cases h
                have hfree : t.isDir (cur ++ [name]) = false := by simp [isDir, hnode]
                have hkeeps : Keeps t (t.put cur name (.dir true)) :=
                  Keeps.put _ (fun old hold => by simp [hnode] at hold)
                have hnew : (t.put cur name (.dir true)).node? (cur ++ [name]) = some (.dir true) :=
                  node?_put_self hdir hvalid hfree
                refine ⟨hkeeps, isDir_iff.2 ⟨true, hnew⟩, ?_⟩
                simp [step, hkeeps.isDir hdir, hdot, hup, hnew]
              · cases h
          -- a directory is there
          · next w hnode =>
              cases h
              exact ⟨Keeps.refl t, isDir_iff.2 ⟨w, hnode⟩, by simp [step, hdir, hdot, hup, hnode]⟩
          -- a link, which must lead to a directory
          · next target hnode =>
              split at h
              · next loc hlink =>
                  split at h
                  · next hloc =>
                      cases h
                      exact ⟨Keeps.refl t, hloc, by simp [step, hdir, hdot, hup, hnode, hlink]⟩
                  · cases h
              · cases h
          · cases h

theorem validName_or_dots {path name : Str} (h : name ∈ names path) :
    ValidName name ∨ name = ['.'] ∨ name = ['.', '.'] := by
  have hname := mem_names h
  by_cases hdot : name = ['.']
  · exact Or.inr (Or.inl hdot)
  · by_cases hup : name = ['.', '.']
    · exact Or.inr (Or.inr hup)
    · exact Or.inl ⟨hname.1, hname.2, hdot, hup⟩

theorem mkdirs_spec {todo : List Str}
    (hnames : ∀ name ∈ todo, ValidName name ∨ name = ['.'] ∨ name = ['.', '.']) :
    ∀ {t t' : Tree} {cur loc : Loc}, t.isDir cur = true → t.mkdirs cur todo = .ok (t', loc) →
      Keeps t t' ∧ t'.isDir loc = true ∧ t'.walk t'.links cur todo = some loc := by
  induction todo with
  | nil =>
      intro t t' cur loc hdir h
      cases h
      exact ⟨Keeps.refl t, hdir, rfl⟩
  | cons name todo ih =>
      intro t t' cur loc hdir h
      rw [mkdirs] at h
      split at h
      · cases h
      · next t₁ next hstep =>
          have hfirst := mkdirStep_spec hdir (hnames name (by simp)) hstep
          have hrest := ih (fun x hx => hnames x (by simp [hx])) hfirst.2.1 h
          refine ⟨hfirst.1.trans hrest.1, hrest.2.1, ?_⟩
          -- the directories made later keep the way to this one
          have hstep' : t'.walk t'.links cur [name] = some next :=
            hrest.1.walk (by simp [walk_cons, hfirst.2.2])
          have happ := walk_append t' t'.links [name] todo cur
          simpa [hstep', hrest.2.2] using happ

/-- A directory that is there already is left alone. -/
theorem mkdirStep_of_step {t : Tree} {cur next : Loc} {name : Str}
    (h : t.step t.links cur name = some next) (hnext : t.isDir next = true) :
    t.mkdirStep cur name = .ok (t, next) := by
  have hdir := isDir_of_step h
  by_cases hdot : name = ['.']
  · simpa [step, mkdirStep, hdir, hdot] using h
  · by_cases hup : name = ['.', '.']
    · simpa [step, mkdirStep, hdir, hup] using h
    · cases hnode : t.node? (cur ++ [name]) with
      | none => simp [step, hdir, hdot, hup, hnode] at h
      | some node =>
          cases node with
          | dir w => simpa [step, mkdirStep, hdir, hdot, hup, hnode] using h
          | link target =>
              have hlink : t.links cur target = some next := by
                simpa [step, hdir, hdot, hup, hnode] using h
              simp [mkdirStep, hdot, hup, hnode, hlink, hnext]
          | file r =>
              have hloc : cur ++ [name] = next := by
                simpa [step, hdir, hdot, hup, hnode] using h
              simp [← hloc, isDir, hnode, Node.isDir] at hnext
          | device =>
              have hloc : cur ++ [name] = next := by
                simpa [step, hdir, hdot, hup, hnode] using h
              simp [← hloc, isDir, hnode, Node.isDir] at hnext

theorem isDir_of_walk {t : Tree} {f : Loc → Str → Option Loc} {todo : List Str} :
    ∀ {cur loc : Loc}, t.walk f cur todo = some loc → t.isDir loc = true → t.isDir cur = true := by
  cases todo with
  | nil =>
      intro cur loc h hloc
      cases h
      exact hloc
  | cons name todo =>
      intro cur loc h _
      rw [walk_cons] at h
      rcases Option.bind_eq_some_iff.1 h with ⟨next, hnext, _⟩
      exact isDir_of_step hnext

theorem mkdirs_of_walk {t : Tree} {todo : List Str} :
    ∀ {cur loc : Loc}, t.walk t.links cur todo = some loc → t.isDir loc = true →
      t.mkdirs cur todo = .ok (t, loc) := by
  induction todo with
  | nil =>
      intro cur loc h _
      cases h
      rfl
  | cons name todo ih =>
      intro cur loc h hloc
      rw [walk_cons] at h
      rcases Option.bind_eq_some_iff.1 h with ⟨next, hnext, hrest⟩
      have hdir : t.isDir next = true := isDir_of_walk hrest hloc
      rw [mkdirs, mkdirStep_of_step hnext hdir]
      exact ih hrest hloc

/-! ## The directory of a path -/

@[simp] theorem walk_dot {t : Tree} {f : Loc → Str → Option Loc} {cur : Loc}
    (h : t.isDir cur = true) : t.walk f cur [['.']] = some cur := by
  simp [walk_cons, step, h]

theorem dirname_ne_nil (path : Str) : dirname path ≠ [] := by
  by_cases hdir : chompSep (upToName path) = []
  · by_cases hroot : path.head? = some '/'
    · simp [dirname, hdir, hroot]
    · simp [dirname, hdir, hroot]
  · by_cases hroot : (chompSep (upToName path)).head? = some '/'
    · simp [dirname, hdir, squeezeRoot, hroot]
    · simp [dirname, hdir, squeezeRoot, hroot]

theorem stat_dirname (t : Tree) (path : Str) :
    t.stat (dirname path) = t.walk t.links (origin t.cwd path) (names (upToName path)) := by
  have horigin : origin t.cwd (dirname path) = origin t.cwd path := by
    simp [origin, isAbsolute_dirname]
  rw [stat_eq_walk (dirname_ne_nil path), horigin]
  rcases components_dirname path with hcomp | ⟨hcomp, hnames⟩
  · rw [hcomp]
  · rw [hcomp, hnames, walk_dot (isDir_origin t path)]
    rfl

theorem mkdir_p_dirname (t : Tree) (path : Str) :
    t.mkdir_p (dirname path) =
      (t.mkdirs (origin t.cwd path) (names (upToName path))).map Prod.fst := by
  have horigin : origin t.cwd (dirname path) = origin t.cwd path := by
    simp [origin, isAbsolute_dirname]
  rw [mkdir_p, horigin]
  rcases names_dirname path with hnames | ⟨hdot, hnames⟩
  · rw [hnames]
  · rw [hdot, hnames]
    rfl

theorem mkdir_p_spec {t t' : Tree} {path : Str} (h : t.mkdir_p path = .ok t') :
    Keeps t t' ∧ ∃ dir, t'.walk t'.links (origin t'.cwd path) (names path) = some dir ∧
      t'.isDir dir = true := by
  rw [mkdir_p] at h
  cases hdirs : t.mkdirs (origin t.cwd path) (names path) with
  | error e => simp [hdirs, Except.map] at h
  | ok r =>
      rcases r with ⟨u, dir⟩
      have hu : u = t' := by simpa [hdirs, Except.map] using h
      subst hu
      have hspec := mkdirs_spec (fun name hname => validName_or_dots hname)
        (isDir_origin t path) hdirs
      refine ⟨hspec.1, dir, ?_, hspec.2.1⟩
      rw [hspec.1.cwd]
      exact hspec.2.2

/-- What was made by `mkdir_p` is there for the next one, as long as the tree is kept. -/
theorem mkdir_p_again {t t' u : Tree} {path : Str} (h : t.mkdir_p path = .ok t')
    (hk : Keeps t' u) : u.mkdir_p path = .ok u := by
  rcases (mkdir_p_spec h).2 with ⟨dir, hwalk, hdir⟩
  have hwalk' := hk.walk hwalk
  rw [← hk.cwd] at hwalk'
  rw [mkdir_p, mkdirs_of_walk hwalk' (hk.isDir hdir)]
  rfl

/-- What holds before holds after `mkdirs`, whether it succeeds or not, if it survives each directory
that is put where nothing was. -/
theorem mkdirs_invariant {P : Tree → Prop}
    (hput : ∀ (t : Tree) (dir : Loc) (name : Str), P t → t.node? (dir ++ [name]) = none →
      P (t.put dir name (.dir true))) {todo : List Str} :
    ∀ {t t' : Tree} {cur : Loc}, P t →
      (∃ loc, t.mkdirs cur todo = .ok (t', loc)) ∨ (∃ e, t.mkdirs cur todo = .error (e, t')) →
      P t' := by
  induction todo with
  | nil =>
      rintro t t' cur ht (⟨loc, h⟩ | ⟨e, h⟩)
      · cases h
        exact ht
      · cases h
  | cons name todo ih =>
      intro t t' cur ht h
      cases hstep : t.mkdirStep cur name with
      | error e =>
          have hsame : t = t' := by
            rcases h with ⟨loc, h⟩ | ⟨e', h⟩
            · simp [mkdirs, hstep] at h
            · simp only [mkdirs, hstep] at h
              cases h
              rfl
          exact hsame ▸ ht
      | ok next =>
          rcases next with ⟨t₁, next⟩
          have hmkdirs : (∃ loc, t₁.mkdirs next todo = .ok (t', loc)) ∨
              ∃ e, t₁.mkdirs next todo = .error (e, t') := by
            simpa only [mkdirs, hstep] using h
          -- a step adds a directory at most, where there is nothing
          have hmade : t₁ = t ∨
              t₁ = t.put cur name (.dir true) ∧ t.node? (cur ++ [name]) = none := by
            unfold mkdirStep at hstep
            grind
          rcases hmade with rfl | ⟨rfl, hfree⟩
          · exact ih ht hmkdirs
          · exact ih (hput _ _ _ ht hfree) hmkdirs

theorem mkdir_p_invariant {P : Tree → Prop}
    (hput : ∀ (t : Tree) (dir : Loc) (name : Str), P t → t.node? (dir ++ [name]) = none →
      P (t.put dir name (.dir true))) {t t' : Tree} {path : Str} (ht : P t)
    (h : t.mkdir_p path = .ok t' ∨ ∃ e, t.mkdir_p path = .error (e, t')) : P t' := by
  have hmkdirs : (∃ loc, t.mkdirs (origin t.cwd path) (names path) = .ok (t', loc)) ∨
      ∃ e, t.mkdirs (origin t.cwd path) (names path) = .error (e, t') := by
    rw [mkdir_p] at h
    cases hdirs : t.mkdirs (origin t.cwd path) (names path) with
    | ok r =>
        left
        have hfst : r.1 = t' := by simpa [hdirs, Except.map] using h
        exact ⟨r.2, by rw [← hfst]⟩
    | error e =>
        right
        have hsnd : ∃ e', e = (e', t') := by simpa [hdirs, Except.map] using h
        rcases hsnd with ⟨e', rfl⟩
        exact ⟨e', rfl⟩
  exact mkdirs_invariant hput ht hmkdirs

/-- `mkdir_p` makes no file, whether it succeeds or not. -/
theorem file_of_mkdir_p {t t' : Tree} {path : Str}
    (h : t.mkdir_p path = .ok t' ∨ ∃ e, t.mkdir_p path = .error (e, t')) {loc : Loc} {r : Bool} :
    t'.node? loc = some (.file r) → t.node? loc = some (.file r) := by
  refine mkdir_p_invariant
    (P := fun u => u.node? loc = some (.file r) → t.node? loc = some (.file r)) ?_ id h
  intro u dir name hu _ hfile
  exact hu (file_of_put_dir hfile)

theorem mkdir_p_dirname_spec {t t' : Tree} {path : Str} (h : t.mkdir_p (dirname path) = .ok t') :
    Keeps t t' ∧ ∃ dir, t'.stat (dirname path) = some dir ∧ t'.isDir dir = true := by
  rcases mkdir_p_spec h with ⟨hkeeps, dir, hwalk, hdir⟩
  refine ⟨hkeeps, dir, ?_, hdir⟩
  have horigin : origin t'.cwd (dirname path) = origin t'.cwd path := by
    simp [origin, isAbsolute_dirname]
  rw [stat_dirname, ← horigin]
  rcases names_dirname path with hnames | ⟨hdot, hnames⟩
  · rwa [← hnames]
  · have hroot : t'.isDir (origin t'.cwd (dirname path)) = true := isDir_origin t' _
    rw [hdot, walk_dot hroot] at hwalk
    rw [hnames]
    exact hwalk

/-- The components of a path with a last name are those of its directory, then that name. -/
theorem components_eq {path : Str} (hbase : basename path ≠ []) :
    ∃ tail, components path = names (upToName path) ++ basename path :: tail ∧
      (path.getLast? ≠ some '/' → tail = []) := by
  by_cases hlast : path.getLast? = some '/'
  · refine ⟨[['.']], ?_, fun hne => absurd hlast hne⟩
    simp [components, hlast, names_eq_append_basename hbase]
  · refine ⟨[], ?_, fun _ => rfl⟩
    simp [components, hlast, names_eq_append_basename hbase]

theorem names_upToName_of_basename_nil {path : Str} (hbase : basename path = []) :
    names (upToName path) = [] := by
  have hparts : upToName path ++ basename path = chompSep path := List.rdropWhile_append_rtakeWhile
  have hpath : upToName path = chompSep path := by simpa [hbase] using hparts
  rcases upToName_cases path with hnil | ⟨u, hu⟩
  · simp [hnil]
  · have hlast := getLast?_chompSep_ne path
    simp [← hpath, hu] at hlast

/-- A path that exists has a directory. -/
theorem stat_dirname_of_stat {t : Tree} {path : Str} {loc : Loc} (h : t.stat path = some loc) :
    ∃ dir, t.stat (dirname path) = some dir ∧ t.isDir dir = true := by
  by_cases hbase : basename path = []
  · refine ⟨origin t.cwd path, ?_, isDir_origin t path⟩
    rw [stat_dirname, names_upToName_of_basename_nil hbase]
    rfl
  · have hne : path ≠ [] := by
      rintro rfl
      simp [basename, chompSep] at hbase
    rw [stat_eq_walk hne] at h
    rcases components_eq hbase with ⟨tail, hcomp, _⟩
    rw [hcomp, walk_append] at h
    rcases Option.bind_eq_some_iff.1 h with ⟨dir, hdir, hrest⟩
    rw [walk_cons] at hrest
    rcases Option.bind_eq_some_iff.1 hrest with ⟨next, hnext, _⟩
    exact ⟨dir, by rw [stat_dirname, hdir], isDir_of_step hnext⟩

theorem mkdir_p_of_stat {t : Tree} {path : Str} {loc : Loc} (h : t.stat path = some loc) :
    t.mkdir_p (dirname path) = .ok t := by
  rcases stat_dirname_of_stat h with ⟨dir, hstat, hdir⟩
  rw [stat_dirname] at hstat
  rw [mkdir_p_dirname, mkdirs_of_walk hstat hdir]
  rfl

/-! ## Making files -/

/-- Where `open(2)` makes the file for a path that leads nowhere: under the last name of the path, or,
when that is a dead link, where this link leads. -/
def newFile (t : Tree) : Nat → Loc → Str → Option Loc
  | 0, _, _ => none
  | depth + 1, cur, path =>
      -- a separator at the end asks for a directory
      if path.getLast? = some '/' then none
      else
        match t.walk (t.follow depth) (origin cur path) (names (upToName path)) with
        | none => none
        | some dir =>
            if t.isDir dir = true ∧ ValidName (basename path) then
              match t.node? (dir ++ [basename path]) with
              | none => some (dir ++ [basename path])
              | some (.link target) => newFile t depth dir target
              | some _ => none
            else none

def creates (t : Tree) (path : Str) : Option Loc :=
  t.newFile (t.linkDepth + 1) t.cwd path

/-- A new file at `path`, if one can be made. -/
def touch (t : Tree) (path : Str) : Tree :=
  match t.creates path with
  | none => t
  | some loc => t.put loc.dropLast (loc.getLastD []) (.file true)

theorem newFile_spec {t : Tree} {loc : Loc} :
    ∀ {depth : Nat} {cur : Loc} {path : Str}, t.newFile depth cur path = some loc →
      ∃ dir name, loc = dir ++ [name] ∧ t.isDir dir = true ∧ ValidName name ∧
        t.node? loc = none := by
  intro depth
  induction depth with
  | zero =>
      intro cur path h
      cases h
  | succ depth ih =>
      intro cur path h
      rw [newFile] at h
      split at h
      · cases h
      · split at h
        · cases h
        · next dir _ =>
            split at h
            · next hfits =>
                split at h
                · next hnode =>
                    cases h
                    exact ⟨dir, basename path, rfl, hfits.1, hfits.2, hnode⟩
                -- the link stands for what it leads to
                · exact ih h
                · cases h
            · cases h

theorem creates_spec {t : Tree} {path : Str} {loc : Loc} (h : t.creates path = some loc) :
    ∃ dir name, loc = dir ++ [name] ∧ t.isDir dir = true ∧ ValidName name ∧ t.node? loc = none :=
  newFile_spec h

/-- How a path with a last name is resolved: the directory in front, and then the name. -/
theorem follow_succ_eq {t : Tree} {depth : Nat} {cur : Loc} {path : Str}
    (hsep : path.getLast? ≠ some '/') (hname : ValidName (basename path)) :
    t.follow (depth + 1) cur path =
      (t.walk (t.follow depth) (origin cur path) (names (upToName path))).bind fun dir =>
        t.step (t.follow depth) dir (basename path) := by
  have hne : path ≠ [] := by
    rintro rfl
    exact hname.1 (by simp [basename, chompSep])
  rcases components_eq hname.1 with ⟨tail, hcomp, htail⟩
  rw [follow, if_neg hne, hcomp, htail hsep, walk_append]
  congr 1
  funext dir
  simp [walk_cons]

/-- In a directory that is there, a name that nothing has is where the file is made. -/
theorem creates_of_free {t : Tree} {path : Str} {dir : Loc} (hsep : path.getLast? ≠ some '/')
    (hname : ValidName (basename path)) (hdirname : t.stat (dirname path) = some dir)
    (hdir : t.isDir dir = true) (hfree : t.node? (dir ++ [basename path]) = none) :
    t.creates path = some (dir ++ [basename path]) := by
  have hwalk : t.walk (t.follow t.linkDepth) (origin t.cwd path) (names (upToName path)) =
      some dir := (stat_dirname t path).symm.trans hdirname
  simp [creates, newFile, hsep, hwalk, hdir, hname, hfree]

section Put

variable {t : Tree} {dir : Loc} {name : Str}

theorem keeps_put_of_free (hfree : t.node? (dir ++ [name]) = none) (node : Node) :
    Keeps t (t.put dir name node) :=
  Keeps.put node fun old hold => by simp [hfree] at hold

/-- Once the file is there, the path leads to it. -/
theorem follow_put_of_newFile (hdir : t.isDir dir = true) (hname : ValidName name)
    (hfree : t.node? (dir ++ [name]) = none) :
    ∀ {depth : Nat} {cur : Loc} {path : Str}, depth ≤ t.linkDepth + 1 →
      t.newFile depth cur path = some (dir ++ [name]) →
      (t.put dir name (.file true)).follow depth cur path = some (dir ++ [name]) := by
  have hkeeps := keeps_put_of_free hfree (.file true)
  have hfile : (t.put dir name (.file true)).node? (dir ++ [name]) = some (.file true) :=
    node?_put_self hdir hname (by simp [isDir, hfree])
  intro depth
  induction depth with
  | zero =>
      intro cur path _ h
      cases h
  | succ depth ih =>
      intro cur path hdepth h
      rw [newFile] at h
      split at h
      · cases h
      · next hsep =>
          split at h
          · cases h
          · next parent hwalk =>
              split at h
              · next hfits =>
                  -- the way up to the last name is as before
                  have hstep := hkeeps.step (by omega) (hkeeps.follow depth (by omega))
                  have hwalk' := walk_mono hstep hwalk
                  have hparent := hkeeps.isDir hfits.1
                  rw [follow_succ_eq hsep hfits.2, hwalk', Option.bind_some, step, if_pos hparent,
                    if_neg hfits.2.2.2.1, if_neg hfits.2.2.2.2]
                  split at h
                  · next hnode =>
                      rw [Option.some.inj h, hfile]
                  · next target hnode =>
                      -- the link is not at the free place, so it still leads on
                      have hne : parent ++ [basename path] ≠ dir ++ [name] := by
                        intro heq
                        simp [heq, hfree] at hnode
                      rw [node?_put_ne hne, hnode]
                      exact ih (by omega) h
                  · cases h
              · cases h

theorem stat_touch {path : Str} {loc : Loc} (h : t.creates path = some loc) :
    (t.touch path).stat path = some loc := by
  rcases creates_spec h with ⟨dir, name, rfl, hdir, hname, hfree⟩
  have hput := follow_put_of_newFile hdir hname hfree (Nat.le_refl _) h
  simpa [touch, h, stat] using hput

end Put

/-- What a new file changes in the tree. -/
theorem touch_spec {t : Tree} {path : Str} {loc : Loc} (h : t.creates path = some loc) :
    Keeps t (t.touch path) ∧ (t.touch path).node? loc = some (.file true) ∧
      (t.touch path).cwd = t.cwd ∧ (t.touch path).linkDepth = t.linkDepth ∧
      ∀ loc', loc' ≠ loc → (t.touch path).node? loc' = t.node? loc' := by
  rcases creates_spec h with ⟨dir, name, rfl, hdir, hname, hfree⟩
  have htouch : t.touch path = t.put dir name (.file true) := by simp [touch, h]
  rw [htouch]
  refine ⟨keeps_put_of_free hfree _, node?_put_self hdir hname (by simp [isDir, hfree]),
    put_cwd .., put_linkDepth .., ?_⟩
  intro loc' hne
  exact node?_put_ne hne

end Tree

/-! ## Trees with file contents -/

structure FileSystem where
  tree : Tree
  data : Loc → List UInt8

namespace FileSystem

open File

/-- `Pathname#exist?`. -/
def exist? (fs : FileSystem) (path : Str) : Bool :=
  (fs.tree.stat path).isSome

/-- `Pathname#size`, of a path that exists. -/
def size (fs : FileSystem) (path : Str) : Nat :=
  ((fs.tree.stat path).map fun loc => (fs.data loc).length).getD 0

def setTree (fs : FileSystem) (t : Tree) : FileSystem :=
  { fs with tree := t }

@[simp] theorem setTree_tree (fs : FileSystem) (t : Tree) : (fs.setTree t).tree = t := rfl

/-- A new file with the given bytes at `path`, if one can be made; nothing else changes. -/
def write (fs : FileSystem) (path : Str) (bytes : List UInt8) : FileSystem :=
  match fs.tree.creates path with
  | none => fs
  | some loc =>
      { tree := fs.tree.touch path
        data := Function.update fs.data loc bytes }

/-- `File.read`. -/
def read (fs : FileSystem) (path : Str) : Except Errno (List UInt8) :=
  match fs.tree.stat path with
  | none => .error .ENOENT
  | some loc =>
      match fs.tree.node? loc with
      | some (.file true) => .ok (fs.data loc)
      | some (.file false) => .error .EACCES
      | _ => .error .EISDIR

theorem read_of_none {fs : FileSystem} {path : Str} (h : fs.tree.stat path = none) :
    fs.read path = .error .ENOENT := by
  simp [read, h]

theorem read_of_file {fs : FileSystem} {path : Str} {loc : Loc} (h : fs.tree.stat path = some loc)
    (hfile : fs.tree.node? loc = some (.file true)) : fs.read path = .ok (fs.data loc) := by
  simp [read, h, hfile]

/-- What a file has been filled with. -/
def fill (fs : FileSystem) (loc : Loc) (bytes : List UInt8) : FileSystem :=
  { fs with data := Function.update fs.data loc bytes }

/-- `File.open(path, 'w')`: the file is there afterwards, and empty. -/
def openWrite (fs : FileSystem) (path : Str) : Except Errno (Loc × FileSystem) :=
  match fs.tree.stat path with
  | some loc => if fs.tree.isDir loc then .error .EISDIR else .ok (loc, fs.fill loc [])
  | none =>
      match fs.tree.creates path with
      | none => .error .ENOENT
      | some loc =>
          if fs.tree.isWritable loc.dropLast then .ok (loc, fs.write path [])
          else .error .EACCES

theorem write_eq {fs : FileSystem} {path : Str} {loc : Loc} (h : fs.tree.creates path = some loc)
    (bytes : List UInt8) :
    fs.write path bytes =
      { tree := fs.tree.touch path, data := Function.update fs.data loc bytes } := by
  simp [write, h]

theorem tree_write (fs : FileSystem) (path : Str) (bytes : List UInt8) :
    (fs.write path bytes).tree = fs.tree.touch path := by
  cases h : fs.tree.creates path with
  | none => simp [write, Tree.touch, h]
  | some loc => rw [write_eq h]

/-- Writing a path that a file can be made for keeps the tree, and the path then leads to the new
file. -/
theorem write_spec {fs : FileSystem} {path : Str} {loc : Loc} (bytes : List UInt8)
    (h : fs.tree.creates path = some loc) :
    Tree.Keeps fs.tree (fs.write path bytes).tree ∧
      (fs.write path bytes).tree.stat path = some loc ∧
      (fs.write path bytes).tree.node? loc = some (.file true) := by
  have hspec := Tree.touch_spec h
  rw [tree_write]
  exact ⟨hspec.1, Tree.stat_touch h, hspec.2.1⟩

/-- What is written is read back. -/
theorem read_write {fs : FileSystem} {path : Str} {loc : Loc} (bytes : List UInt8)
    (h : fs.tree.creates path = some loc) : (fs.write path bytes).read path = .ok bytes := by
  have hspec := write_spec bytes h
  have hdata : (fs.write path bytes).data loc = bytes := by simp [write_eq h]
  rw [read_of_file hspec.2.1 hspec.2.2, hdata]

end FileSystem

end Ruby
