import Mathlib.Data.List.AList
import Yikes.Ruby.Path

/-!
# Tree — a file tree with symbolic links

A place in the tree (`Loc`) is the list of names that lead to it from the root, so a place is its own
real path.  A `Tree` lists the nodes at the places below the root; that every node hangs below a
directory is part of the structure, and so is the working directory of the process that looks at it.

* `Tree.walk` resolves names one by one, `Tree.follow` resolves a path text (that of a symbolic link,
  or one the process asks for), and `Tree.stat` resolves a path of the process;
* `Tree.put` puts a node into a directory, in place of anything but another directory;
* `Keeps t u` says that `u` has every node of `t` that some path can pass.  Whatever resolves in `t`
  resolves to the same place in `u` (`Keeps.stat`).

Links are followed up to a nesting depth that is part of the tree (the limit of the system).
-/

namespace Ruby

abbrev Loc := List Str

inductive Node
  | dir (writable : Bool)
  /-- a regular file, a fifo or a socket -/
  | file (readable : Bool)
  /-- a block or character device -/
  | device
  | link (target : Str)
  deriving DecidableEq, Repr

inductive Errno
  | EEXIST
  | EACCES
  | ENOENT
  | ENOTDIR
  | ELOOP
  | EISDIR
  deriving DecidableEq, Repr

def Node.isDir : Node → Bool
  | .dir _ => true
  | _ => false

/-- A name a directory entry can have. -/
def ValidName (name : Str) : Prop :=
  name ≠ [] ∧ '/' ∉ name ∧ name ≠ ['.'] ∧ name ≠ ['.', '.']

instance (name : Str) : Decidable (ValidName name) := by
  unfold ValidName
  infer_instance

structure Tree where
  nodes : AList fun _ : Loc => Node
  cwd : Loc
  linkDepth : Nat
  below : ∀ loc node, nodes.lookup loc = some node →
    ∃ dir name, loc = dir ++ [name] ∧ ValidName name ∧
      (dir = [] ∨ ∃ w, nodes.lookup dir = some (.dir w))
  cwd_isDir : cwd = [] ∨ ∃ w, nodes.lookup cwd = some (.dir w)

namespace Tree

/-- A root directory without entries. -/
def empty (linkDepth : Nat) : Tree where
  nodes := ∅
  cwd := []
  linkDepth := linkDepth
  below := by
    intro loc node h
    simp at h
  cwd_isDir := Or.inl rfl

/-! ## Looking at one place -/

/-- The node at a place; the root is always a directory. -/
def node? (t : Tree) (loc : Loc) : Option Node :=
  if loc = [] then some (.dir true) else t.nodes.lookup loc

def isDir (t : Tree) (loc : Loc) : Bool :=
  (t.node? loc).any Node.isDir

theorem isDir_iff {t : Tree} {loc : Loc} :
    t.isDir loc = true ↔ ∃ w, t.node? loc = some (.dir w) := by
  constructor
  · intro h
    cases hnode : t.node? loc with
    | none => simp [isDir, hnode] at h
    | some node =>
        cases node with
        | dir w => exact ⟨w, rfl⟩
        | _ => simp [isDir, hnode, Node.isDir] at h
  · rintro ⟨w, hnode⟩
    simp [isDir, hnode, Node.isDir]

@[simp] theorem isDir_root (t : Tree) : t.isDir [] = true :=
  isDir_iff.2 ⟨true, by simp [node?]⟩

/-! ## Resolving paths -/

/-- One name of a path, taken from the directory `cur`; `follow` resolves links. -/
def step (t : Tree) (follow : Loc → Str → Option Loc) (cur : Loc) (name : Str) : Option Loc :=
  if t.isDir cur then
    if name = ['.'] then some cur
    else if name = ['.', '.'] then some cur.dropLast
    else
      match t.node? (cur ++ [name]) with
      | none => none
      -- the target of a link is read in the directory the link is in
      | some (.link target) => follow cur target
      | some _ => some (cur ++ [name])
  else none

def walk (t : Tree) (follow : Loc → Str → Option Loc) (cur : Loc) (todo : List Str) : Option Loc :=
  todo.foldlM (t.step follow) cur

/-- Where the names of `path` start from, for a path that is read in `cur`. -/
def origin (cur : Loc) (path : Str) : Loc :=
  if File.isAbsolute path then [] else cur

/-- The place `path` leads to from `cur`, through at most `depth` nested links. -/
def follow (t : Tree) : Nat → Loc → Str → Option Loc
  | 0, _, _ => none
  | depth + 1, cur, path =>
      if path = [] then none
      else t.walk (t.follow depth) (origin cur path) (File.components path)

/-- The links that can still be nested once a path of the process is being resolved. -/
def links (t : Tree) : Loc → Str → Option Loc :=
  t.follow t.linkDepth

/-- `stat(2)`: the place a path of the process leads to. -/
def stat (t : Tree) (path : Str) : Option Loc :=
  t.follow (t.linkDepth + 1) t.cwd path

@[simp] theorem walk_nil (t : Tree) (f : Loc → Str → Option Loc) (cur : Loc) :
    t.walk f cur [] = some cur := rfl

theorem walk_cons (t : Tree) (f : Loc → Str → Option Loc) (cur : Loc) (name : Str)
    (todo : List Str) :
    t.walk f cur (name :: todo) = (t.step f cur name).bind fun next => t.walk f next todo := by
  simp only [walk, List.foldlM_cons]
  rfl

theorem walk_append (t : Tree) (f : Loc → Str → Option Loc) (todo rest : List Str) :
    ∀ cur : Loc,
      t.walk f cur (todo ++ rest) = (t.walk f cur todo).bind fun next => t.walk f next rest := by
  induction todo with
  | nil =>
      intro cur
      rfl
  | cons name todo ih =>
      intro cur
      simp only [List.cons_append, walk_cons, Option.bind_assoc, ih]

theorem stat_eq_walk {t : Tree} {path : Str} (hne : path ≠ []) :
    t.stat path = t.walk t.links (origin t.cwd path) (File.components path) := by
  simp [stat, follow, hne, links]

theorem isDir_of_step {t : Tree} {f : Loc → Str → Option Loc} {cur next : Loc} {name : Str}
    (h : t.step f cur name = some next) : t.isDir cur = true := by
  unfold step at h
  split at h
  · assumption
  · cases h

theorem isDir_cwd (t : Tree) : t.isDir t.cwd = true := by
  rcases t.cwd_isDir with hroot | ⟨w, hnode⟩
  · rw [hroot]
    exact isDir_root t
  · by_cases hroot : t.cwd = []
    · rw [hroot]
      exact isDir_root t
    · exact isDir_iff.2 ⟨w, by simp [node?, hroot, hnode]⟩

theorem isDir_origin (t : Tree) (path : Str) : t.isDir (origin t.cwd path) = true := by
  unfold origin
  split
  · exact isDir_root t
  · exact isDir_cwd t

/-! ## Putting a node into place -/

theorem lookup_dir_of_isDir {t : Tree} {dir : Loc} (h : t.isDir dir = true) :
    dir = [] ∨ ∃ w, t.nodes.lookup dir = some (.dir w) := by
  by_cases hroot : dir = []
  · exact Or.inl hroot
  · right
    rcases isDir_iff.1 h with ⟨w, hnode⟩
    exact ⟨w, by simpa [node?, hroot] using hnode⟩

/-- A directory is still one after a node was put at a place that is not a directory. -/
theorem lookup_dir_insert {t : Tree} {loc dir : Loc} {node : Node} (hloc : t.isDir loc = false)
    (hdir : dir = [] ∨ ∃ w, t.nodes.lookup dir = some (.dir w)) :
    dir = [] ∨ ∃ w, (t.nodes.insert loc node).lookup dir = some (.dir w) := by
  rcases hdir with hroot | ⟨w, hnode⟩
  · exact Or.inl hroot
  · right
    refine ⟨w, ?_⟩
    have hne : dir ≠ loc := by
      rintro rfl
      have hisDir : t.isDir dir = true := by
        by_cases hroot : dir = []
        · simp [hroot]
        · exact isDir_iff.2 ⟨w, by simp [node?, hroot, hnode]⟩
      simp [hisDir] at hloc
    simpa [AList.lookup_insert_ne hne] using hnode

/-- `node` under the name `name` in `dir`, in place of anything that is not a directory. -/
def put (t : Tree) (dir : Loc) (name : Str) (node : Node) : Tree :=
  if h : t.isDir dir = true ∧ ValidName name ∧ t.isDir (dir ++ [name]) = false then
    { t with
      nodes := t.nodes.insert (dir ++ [name]) node
      -- nothing that was a directory is replaced, so what hung below one still does
      below := by
        intro loc node' hlookup
        by_cases hloc : loc = dir ++ [name]
        · exact ⟨dir, name, hloc, h.2.1, lookup_dir_insert h.2.2 (lookup_dir_of_isDir h.1)⟩
        · rw [AList.lookup_insert_ne hloc] at hlookup
          rcases t.below loc node' hlookup with ⟨dir', name', hparts, hname, hdir'⟩
          exact ⟨dir', name', hparts, hname, lookup_dir_insert h.2.2 hdir'⟩
      cwd_isDir := lookup_dir_insert h.2.2 t.cwd_isDir }
  else t

theorem node?_put_self {t : Tree} {dir : Loc} {name : Str} {node : Node}
    (hdir : t.isDir dir = true) (hname : ValidName name) (hfree : t.isDir (dir ++ [name]) = false) :
    (t.put dir name node).node? (dir ++ [name]) = some node := by
  simp [put, hdir, hname, hfree, node?]

theorem node?_put_ne {t : Tree} {dir loc : Loc} {name : Str} {node : Node}
    (hne : loc ≠ dir ++ [name]) : (t.put dir name node).node? loc = t.node? loc := by
  unfold put
  split
  · simp [node?, AList.lookup_insert_ne hne]
  · rfl

/-- What is there after a node was put into place was there before, or is the new node. -/
theorem of_node_put {t : Tree} {dir loc : Loc} {name : Str} {new node : Node}
    (h : (t.put dir name new).node? loc = some node) :
    t.node? loc = some node ∨ (loc = dir ++ [name] ∧ node = new) := by
  by_cases hfits : t.isDir dir = true ∧ ValidName name ∧ t.isDir (dir ++ [name]) = false
  · by_cases hloc : loc = dir ++ [name]
    · rw [hloc, node?_put_self hfits.1 hfits.2.1 hfits.2.2] at h
      exact Or.inr ⟨hloc, (Option.some.inj h).symm⟩
    · rw [node?_put_ne hloc] at h
      exact Or.inl h
  · left
    simpa [put, hfits] using h

/-- Putting a directory makes no file. -/
theorem file_of_put_dir {t : Tree} {dir loc : Loc} {name : Str} {w r : Bool}
    (h : (t.put dir name (.dir w)).node? loc = some (.file r)) : t.node? loc = some (.file r) := by
  rcases of_node_put h with hold | ⟨_, hnew⟩
  · exact hold
  · cases hnew

@[simp] theorem put_cwd (t : Tree) (dir : Loc) (name : Str) (node : Node) :
    (t.put dir name node).cwd = t.cwd := by
  unfold put
  split <;> rfl

@[simp] theorem put_linkDepth (t : Tree) (dir : Loc) (name : Str) (node : Node) :
    (t.put dir name node).linkDepth = t.linkDepth := by
  unfold put
  split <;> rfl

/-! ## Nothing that resolves is lost -/

/-- `u` has every node of `t`, but for links that nothing can pass. -/
structure Keeps (t u : Tree) : Prop where
  cwd : u.cwd = t.cwd
  linkDepth : u.linkDepth = t.linkDepth
  node : ∀ loc node, t.node? loc = some node →
    u.node? loc = some node ∨
      ∃ target, node = .link target ∧ t.links loc.dropLast target = none

/-- A walk that goes through goes through with any steps that can do more. -/
theorem foldlM_mono {α β : Type} {f g : α → β → Option α}
    (hstep : ∀ cur x next, f cur x = some next → g cur x = some next) :
    ∀ {todo : List β} {cur last : α},
      todo.foldlM f cur = some last → todo.foldlM g cur = some last := by
  intro todo
  induction todo with
  | nil =>
      intro cur last h
      simpa using h
  | cons x todo ih =>
      intro cur last h
      rw [List.foldlM_cons] at h ⊢
      rcases Option.bind_eq_some_iff.1 h with ⟨next, hnext, hrest⟩
      exact Option.bind_eq_some_iff.2 ⟨next, hstep cur x next hnext, ih hrest⟩

theorem walk_mono {t u : Tree} {f g : Loc → Str → Option Loc}
    (hstep : ∀ cur name next, t.step f cur name = some next → u.step g cur name = some next)
    {todo : List Str} {cur loc : Loc} (h : t.walk f cur todo = some loc) :
    u.walk g cur todo = some loc :=
  foldlM_mono hstep h

theorem step_mono {t : Tree} {f g : Loc → Str → Option Loc}
    (hfg : ∀ cur path loc, f cur path = some loc → g cur path = some loc) :
    ∀ cur name next, t.step f cur name = some next → t.step g cur name = some next := by
  intro cur name next h
  unfold step at h ⊢
  split at h
  · next hdir =>
      rw [if_pos hdir]
      split at h
      · next hdot =>
          rw [if_pos hdot]
          exact h
      · next hdot =>
          rw [if_neg hdot]
          split at h
          · next hup =>
              rw [if_pos hup]
              exact h
          · next hup =>
              rw [if_neg hup]
              cases hnode : t.node? (cur ++ [name]) with
              | none => simp [hnode] at h
              | some node =>
                  cases node with
                  | link target => exact hfg _ _ _ (by simpa [hnode] using h)
                  | _ => simpa [hnode] using h
  · cases h

theorem follow_succ {t : Tree} :
    ∀ (depth : Nat) (cur : Loc) (path : Str) (loc : Loc),
      t.follow depth cur path = some loc → t.follow (depth + 1) cur path = some loc := by
  intro depth
  induction depth with
  | zero =>
      intro cur path loc h
      cases h
  | succ depth ih =>
      intro cur path loc h
      by_cases hne : path = []
      · simp [follow, hne] at h
      · have hwalk : t.walk (t.follow depth) (origin cur path) (File.components path) = some loc := by
          simpa [follow, hne] using h
        have hmono := walk_mono (step_mono ih) hwalk
        rw [follow]
        simpa [hne] using hmono

theorem follow_of_le {t : Tree} {depth depth' : Nat} (hle : depth ≤ depth') {cur : Loc} {path : Str}
    {loc : Loc} (h : t.follow depth cur path = some loc) : t.follow depth' cur path = some loc := by
  induction hle with
  | refl => exact h
  | step _ ih => exact follow_succ _ _ _ _ ih

namespace Keeps

theorem isDir {t u : Tree} (hk : Keeps t u) {loc : Loc} (h : t.isDir loc = true) :
    u.isDir loc = true := by
  rcases isDir_iff.1 h with ⟨w, hnode⟩
  rcases hk.node loc _ hnode with hu | ⟨target, hlink, _⟩
  · exact isDir_iff.2 ⟨w, hu⟩
  · cases hlink

/-- A step of `t` is a step of `u`: a link that was replaced could not be passed before. -/
theorem step {t u : Tree} (hk : Keeps t u) {depth : Nat} (hdepth : depth ≤ t.linkDepth)
    (ih : ∀ cur path loc, t.follow depth cur path = some loc → u.follow depth cur path = some loc) :
    ∀ cur name next, t.step (t.follow depth) cur name = some next →
      u.step (u.follow depth) cur name = some next := by
  intro cur name next h
  have hdir : t.isDir cur = true := isDir_of_step h
  have hdir' : u.isDir cur = true := hk.isDir hdir
  by_cases hdot : name = ['.']
  · simpa [Tree.step, hdir, hdir', hdot] using h
  · by_cases hup : name = ['.', '.']
    · simpa [Tree.step, hdir, hdir', hup] using h
    · cases hnode : t.node? (cur ++ [name]) with
      | none => simp [Tree.step, hdir, hdot, hup, hnode] at h
      | some node =>
          rcases hk.node _ _ hnode with hu | ⟨target, rfl, hdead⟩
          · cases node with
            | link target =>
                have hfollow : t.follow depth cur target = some next := by
                  simpa [Tree.step, hdir, hdot, hup, hnode] using h
                simpa [Tree.step, hdir', hdot, hup, hu] using ih _ _ _ hfollow
            | _ => simpa [Tree.step, hdir, hdir', hdot, hup, hnode, hu] using h
          -- a replaced link was dead, but this step has passed it
          · have hfollow : t.follow depth cur target = some next := by
              simpa [Tree.step, hdir, hdot, hup, hnode] using h
            have hlive : t.links cur target = some next := follow_of_le hdepth hfollow
            simp [hlive] at hdead

theorem follow {t u : Tree} (hk : Keeps t u) :
    ∀ depth, depth ≤ t.linkDepth + 1 → ∀ cur path loc,
      t.follow depth cur path = some loc → u.follow depth cur path = some loc := by
  intro depth
  induction depth with
  | zero =>
      intro _ cur path loc h
      cases h
  | succ depth ih =>
      intro hdepth cur path loc h
      by_cases hne : path = []
      · simp [Tree.follow, hne] at h
      · have hwalk : t.walk (t.follow depth) (origin cur path) (File.components path) = some loc := by
          simpa [Tree.follow, hne] using h
        have hmono := walk_mono (hk.step (by omega) (ih (by omega))) hwalk
        rw [Tree.follow]
        simpa [hne] using hmono

/-- Whatever a path resolves to in `t`, it resolves to in `u`. -/
theorem stat {t u : Tree} (hk : Keeps t u) {path : Str} {loc : Loc} (h : t.stat path = some loc) :
    u.stat path = some loc := by
  have hfollow := hk.follow _ (Nat.le_refl _) _ _ _ h
  simpa [Tree.stat, hk.cwd, hk.linkDepth] using hfollow

theorem links {t u : Tree} (hk : Keeps t u) {cur : Loc} {path : Str} {loc : Loc}
    (h : t.links cur path = some loc) : u.links cur path = some loc := by
  have hfollow := hk.follow _ (Nat.le_succ _) _ _ _ h
  simpa [Tree.links, hk.linkDepth] using hfollow

theorem walk {t u : Tree} (hk : Keeps t u) {cur : Loc} {todo : List Str} {loc : Loc}
    (h : t.walk t.links cur todo = some loc) : u.walk u.links cur todo = some loc := by
  refine walk_mono ?_ h
  intro cur name next hstep
  have hmono := hk.step (Nat.le_refl _) (hk.follow _ (Nat.le_succ _)) cur name next hstep
  simpa [Tree.links, hk.linkDepth] using hmono

theorem refl (t : Tree) : Keeps t t where
  cwd := rfl
  linkDepth := rfl
  node := fun _ _ h => Or.inl h

theorem trans {t u v : Tree} (htu : Keeps t u) (huv : Keeps u v) : Keeps t v where
  cwd := huv.cwd.trans htu.cwd
  linkDepth := huv.linkDepth.trans htu.linkDepth
  node := by
    intro loc node h
    rcases htu.node loc node h with hu | hdead
    · rcases huv.node loc node hu with hv | ⟨target, rfl, hdead⟩
      · exact Or.inl hv
      · right
        refine ⟨target, rfl, ?_⟩
        -- the link is dead in `u`, so it was dead in `t`
        cases hlive : t.links loc.dropLast target with
        | none => rfl
        | some next => simp [htu.links hlive] at hdead
    · exact Or.inr hdead

/-- Putting a node where there is none, or only a link that leads nowhere, keeps the tree. -/
theorem put {t : Tree} {dir : Loc} {name : Str} (node : Node)
    (hfree : ∀ old, t.node? (dir ++ [name]) = some old →
      ∃ target, old = .link target ∧ t.links dir target = none) :
    Keeps t (t.put dir name node) where
  cwd := put_cwd t dir name node
  linkDepth := put_linkDepth t dir name node
  node := by
    intro loc old h
    by_cases hloc : loc = dir ++ [name]
    · subst hloc
      right
      simpa using hfree old h
    · left
      rw [node?_put_ne hloc]
      exact h

end Keeps

end Tree

end Ruby
