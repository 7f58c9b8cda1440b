import Yikes.Ruby.Files
import Yikes.Ruby.Listing

/-!
# Written — what is left alone by a program that writes one path

* `Tree.node_of_mkdir_p` says that making directories leaves every node as it was.
* `WritesOnly path fs fs'` says that what changed from `fs` to `fs'` is what `path` leads to.  A path
  that leads nowhere is then a new file, and every file that was there keeps its bytes
  (`WritesOnly.file`, `WritesOnly.created`).
* A path whose names pass no link leads to the place that has these names (`walk_unlinked`).
-/

namespace Ruby

open File

namespace Tree

/-! ## Directories that are made -/

theorem node_of_mkdir_p {t t' : Tree} {path : Str}
    (h : t.mkdir_p path = .ok t' ∨ ∃ e, t.mkdir_p path = .error (e, t')) :
    t'.cwd = t.cwd ∧ t'.linkDepth = t.linkDepth ∧
      ∀ {loc : Loc} {node : Node}, t.node? loc = some node → t'.node? loc = some node := by
  refine mkdir_p_invariant (P := fun u => u.cwd = t.cwd ∧ u.linkDepth = t.linkDepth ∧
    ∀ {loc : Loc} {node : Node}, t.node? loc = some node → u.node? loc = some node)
    ?_ ⟨rfl, rfl, id⟩ h
  rintro u dir name ⟨hcwd, hdepth, hnode⟩ hfree
  refine ⟨by simpa using hcwd, by simpa using hdepth, ?_⟩
  intro loc node hold
  have hkept := hnode hold
  have hne : loc ≠ dir ++ [name] := by
    rintro rfl
    simp [hfree] at hkept
  rw [node?_put_ne hne, hkept]

/-! ## Trees in which every path leads to the same place -/

/-- The same nodes, but for what files let be done with them. -/
def SameNodes (t u : Tree) : Prop :=
  ∀ loc, u.node? loc = t.node? loc ∨
    ∃ r r', t.node? loc = some (.file r) ∧ u.node? loc = some (.file r')

theorem step_congr {t u : Tree} (h : SameNodes t u) {f g : Loc → Str → Option Loc} (hfg : g = f)
    (cur : Loc) (name : Str) : u.step g cur name = t.step f cur name := by
  have hdir : u.isDir cur = t.isDir cur := by
    rcases h cur with hsame | ⟨r, r', hold, hnew⟩
    · simp [isDir, hsame]
    · simp [isDir, hold, hnew, Node.isDir]
  rw [hfg, step, step, hdir]
  rcases h (cur ++ [name]) with hsame | ⟨r, r', hold, hnew⟩
  · rw [hsame]
  · rw [hold, hnew]

theorem follow_congr {t u : Tree} (h : SameNodes t u) (depth : Nat) :
    u.follow depth = t.follow depth := by
  induction depth with
  | zero => rfl
  | succ depth ih =>
      funext cur path
      have hstep : u.step (u.follow depth) = t.step (t.follow depth) := by
        funext cur' name
        exact step_congr h ih cur' name
      rw [follow, follow, walk, walk, hstep]

theorem stat_congr {t u : Tree} (h : SameNodes t u) (hcwd : u.cwd = t.cwd)
    (hdepth : u.linkDepth = t.linkDepth) (path : Str) : u.stat path = t.stat path := by
  rw [stat, stat, hcwd, hdepth, follow_congr h]

/-! ## Ways without links -/

/-- From `cur`, no name leads up and none is that of a link. -/
def Unlinked (t : Tree) : Loc → List Str → Prop
  | _, [] => True
  | cur, name :: rest =>
      if name = ['.'] then Unlinked t cur rest
      else name ≠ ['.', '.'] ∧ (∀ target, t.node? (cur ++ [name]) ≠ some (.link target)) ∧
        Unlinked t (cur ++ [name]) rest

theorem walk_unlinked {t : Tree} {f : Loc → Str → Option Loc} {todo : List Str} :
    ∀ {cur loc : Loc}, Unlinked t cur todo → t.walk f cur todo = some loc →
      loc = cur ++ todo.filter fun name => name ≠ ['.'] := by
  induction todo with
  | nil =>
      intro cur loc _ h
      simpa using h.symm
  | cons name todo ih =>
      intro cur loc hway h
      rw [walk_cons] at h
      rcases Option.bind_eq_some_iff.1 h with ⟨next, hstep, hrest⟩
      have hdir := isDir_of_step hstep
      by_cases hdot : name = ['.']
      · have hsame : cur = next := by simpa [step, hdir, hdot] using hstep
        rw [Unlinked, if_pos hdot] at hway
        rw [← hsame] at hrest
        simpa [hdot] using ih hway hrest
      · rw [Unlinked, if_neg hdot] at hway
        have hnext : cur ++ [name] = next := by
          rw [step, if_pos hdir, if_neg hdot, if_neg hway.1] at hstep
          cases hnode : t.node? (cur ++ [name]) with
          | none => simp [hnode] at hstep
          | some node =>
              cases node with
              | link target => exact absurd hnode (hway.2.1 target)
              | _ => simpa [hnode] using hstep
        rw [← hnext] at hrest
        have hloc := ih hway.2.2 hrest
        simpa [hdot] using hloc

end Tree

/-! ## Writing one path -/

/-- From `fs` to `fs'` nothing changed but what `path` leads to; what is new is a file. -/
structure WritesOnly (path : Str) (fs fs' : FileSystem) : Prop where
  cwd : fs'.tree.cwd = fs.tree.cwd
  linkDepth : fs'.tree.linkDepth = fs.tree.linkDepth
  elsewhere : ∀ loc, fs.tree.stat path ≠ some loc →
    ¬ (fs'.tree.stat path = some loc ∧ ∃ r, fs'.tree.node? loc = some (.file r)) →
    fs'.tree.node? loc = fs.tree.node? loc ∧ fs'.data loc = fs.data loc

namespace WritesOnly

variable {path : Str} {fs fs' : FileSystem}

theorem refl (path : Str) (fs : FileSystem) : WritesOnly path fs fs :=
  ⟨rfl, rfl, fun _ _ _ => ⟨rfl, rfl⟩⟩

/-- A file that is new after the path led nowhere is where the path leads now. -/
theorem created (h : WritesOnly path fs fs') (hnone : fs.tree.stat path = none) {loc : Loc} {r : Bool}
    (hfile : fs'.tree.node? loc = some (.file r)) (hnew : ∀ r, fs.tree.node? loc ≠ some (.file r)) :
    fs'.tree.stat path = some loc := by
  by_contra hne
  have hsame := (h.elsewhere loc (by simp [hnone]) (fun hloc => hne hloc.1)).1
  exact hnew r (hsame.symm.trans hfile)

/-- If the path led nowhere, no file that was there has changed. -/
theorem file (h : WritesOnly path fs fs') (hnone : fs.tree.stat path = none) {loc : Loc} {r : Bool}
    (hfile : fs.tree.node? loc = some (.file r)) :
    fs'.tree.node? loc = some (.file r) ∧ fs'.data loc = fs.data loc := by
  by_cases hlands : fs'.tree.stat path = some loc ∧ ∃ r', fs'.tree.node? loc = some (.file r')
  · exfalso
    rcases hlands with ⟨hstat, r', hfile'⟩
    -- the path would have led to that file before
    have hsame : Tree.SameNodes fs.tree fs'.tree := by
      intro loc'
      by_cases hloc : loc' = loc
      · rw [hloc]
        exact Or.inr ⟨r, r', hfile, hfile'⟩
      · left
        refine (h.elsewhere loc' (by simp [hnone]) ?_).1
        rintro ⟨hstat', _⟩
        exact hloc (Option.some.inj (hstat'.symm.trans hstat))
    rw [Tree.stat_congr hsame h.cwd h.linkDepth, hnone] at hstat
    cases hstat
  · rcases h.elsewhere loc (by simp [hnone]) hlands with ⟨hnode, hdata⟩
    exact ⟨hnode.trans hfile, hdata⟩

end WritesOnly

/-- Writing a path that leads nowhere writes only that path. -/
theorem FileSystem.writesOnly_write (fs : FileSystem) (path : Str) (bytes : List UInt8) :
    WritesOnly path fs (fs.write path bytes) := by
  cases h : fs.tree.creates path with
  | none =>
      have hsame : fs.write path bytes = fs := by simp [FileSystem.write, h]
      rw [hsame]
      exact .refl path fs
  | some new =>
      have hspec := Tree.touch_spec h
      have hstat := Tree.stat_touch h
      rw [FileSystem.write_eq h]
      refine ⟨hspec.2.2.1, hspec.2.2.2.1, ?_⟩
      intro loc _ hlands
      have hne : loc ≠ new := by
        rintro rfl
        exact hlands ⟨hstat, true, hspec.2.1⟩
      exact ⟨hspec.2.2.2.2 loc hne, Function.update_of_ne hne _ _⟩

/-! ## The path of a file below a directory -/

/-- The path of something below a directory leads there from that directory. -/
theorem Tree.walk_of_stat_join {t : Tree} {dir rel : Str} {loc : Loc} (hrel : names rel ≠ [])
    (h : t.stat (join [dir, rel]) = some loc) :
    ∃ root, t.stat (join [dir, []]) = some root ∧ t.walk t.links root (names rel) = some loc := by
  rw [join_pair] at h ⊢
  have horigin : origin t.cwd (join2 dir []) = origin t.cwd (join2 dir rel) := by
    simp only [origin, isAbsolute, head?_join2]
  have hwalk := walk_names_of_stat h
  rw [names_join2, walk_append] at hwalk
  rcases Option.bind_eq_some_iff.1 hwalk with ⟨root, hroot, hrest⟩
  have hdir : t.isDir root = true := by
    cases hnames : names rel with
    | nil => exact absurd hnames hrel
    | cons name todo =>
        rw [hnames, walk_cons] at hrest
        rcases Option.bind_eq_some_iff.1 hrest with ⟨next, hstep, _⟩
        exact isDir_of_step hstep
  have hne : join2 dir [] ≠ [] := by
    intro hnil
    have hhead := head?_join2 dir []
    simp [hnil] at hhead
  refine ⟨root, stat_of_walk_names hne ?_ hdir, hrest⟩
  rw [horigin, names_join2, names_nil, List.append_nil, hroot]

end Ruby
