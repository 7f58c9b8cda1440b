import Yikes.Ruby.Ways

/-!
# Trail — where a path would lead

`Tree.stat` answers for what is there.  The trail of a path is read off its names and the links of the
tree alone: the directories the path goes on from, and the place it ends at, whether there is anything
or not.

* a path leads to a place if the directories of its trail are directories and something is at the place
  (`stat_iff`);
* trees with the same links have the same trails (`trail_congr`);
* `Made t paths u` says that `u` is `t` with all of `paths` made.  Where a path leads in `u` can then be
  read off `t` (`Made.stat_iff`).
-/

namespace Ruby

structure Trail where
  dirs : List Loc
  last : Loc
  deriving DecidableEq, Repr

/-- What the trail goes through and ends at is there. -/
structure Trail.There (r : Trail) (t : Tree) : Prop where
  dirs : ∀ dir ∈ r.dirs, t.isDir dir = true
  last : (t.node? r.last).isSome = true

namespace Tree

open File

/-! ## Trails -/

/-- One name, taken from `cur`; only a link leads elsewhere than under its name. -/
def trailStep (t : Tree) (follow : Loc → Str → Option Trail) (cur : Loc) (name : Str) :
    Option Trail :=
  if name = ['.'] then some ⟨[cur], cur⟩
  else if name = ['.', '.'] then some ⟨[cur], cur.dropLast⟩
  else
    match t.node? (cur ++ [name]) with
    | some (.link target) => (follow cur target).map fun r => ⟨cur :: r.dirs, r.last⟩
    | _ => some ⟨[cur], cur ++ [name]⟩

def trailWalk (t : Tree) (follow : Loc → Str → Option Trail) : Loc → List Str → Option Trail
  | cur, [] => some ⟨[], cur⟩
  | cur, name :: todo =>
      (t.trailStep follow cur name).bind fun first =>
        (trailWalk t follow first.last todo).map fun rest => ⟨first.dirs ++ rest.dirs, rest.last⟩

def trailFrom (t : Tree) : Nat → Loc → Str → Option Trail
  | 0, _, _ => none
  | depth + 1, cur, path =>
      if path = [] then none
      else t.trailWalk (t.trailFrom depth) (origin cur path) (components path)

/-- The trail of a path of the process; `none` if its links are nested too deep. -/
def trail (t : Tree) (path : Str) : Option Trail :=
  t.trailFrom (t.linkDepth + 1) t.cwd path


/-! ## What is there -/

theorem isSome_of_isDir {t : Tree} {loc : Loc} (h : t.isDir loc = true) :
    (t.node? loc).isSome = true := by
  rcases isDir_iff.1 h with ⟨w, hnode⟩
  simp [hnode]

section

variable {t : Tree} {f : Loc → Str → Option Loc} {g : Loc → Str → Option Trail}

theorem mem_dirs_of_trailStep {cur : Loc} {name : Str} {r : Trail}
    (h : t.trailStep g cur name = some r) : cur ∈ r.dirs := by
  unfold trailStep at h
  split at h
  · cases h
    simp
  · split at h
    · cases h
      simp
    · split at h
      · rcases Option.map_eq_some_iff.1 h with ⟨r', _, rfl⟩
        simp
      · cases h
        simp

/-- A trail goes on from where it starts, unless it ends there. -/
theorem start_of_trailWalk {cur : Loc} {todo : List Str} {r : Trail}
    (h : t.trailWalk g cur todo = some r) : cur ∈ r.dirs ∨ cur = r.last := by
  cases todo with
  | nil =>
      cases h
      exact Or.inr rfl
  | cons name todo =>
      rcases Option.bind_eq_some_iff.1 h with ⟨first, hfirst, hrest⟩
      rcases Option.map_eq_some_iff.1 hrest with ⟨rest, _, rfl⟩
      exact Or.inl (List.mem_append.2 (Or.inl (mem_dirs_of_trailStep hfirst)))

theorem trailWalk_append {xs ys : List Str} :
    ∀ {cur : Loc} {r : Trail}, t.trailWalk g cur (xs ++ ys) = some r →
      ∃ front back, t.trailWalk g cur xs = some front ∧ t.trailWalk g front.last ys = some back ∧
        r = ⟨front.dirs ++ back.dirs, back.last⟩ := by
  induction xs with
  | nil =>
      intro cur r h
      exact ⟨⟨[], cur⟩, r, rfl, h, rfl⟩
  | cons name xs ih =>
      intro cur r h
      rcases Option.bind_eq_some_iff.1 h with ⟨first, hfirst, hrest⟩
      rcases Option.map_eq_some_iff.1 hrest with ⟨rest, htail, rfl⟩
      rcases ih htail with ⟨front, back, hfront, hback, rfl⟩
      exact ⟨⟨first.dirs ++ front.dirs, front.last⟩, back, by simp [trailWalk, hfirst, hfront], hback,
        by simp⟩

/-- A step goes through if its trail is there. -/
theorem step_iff
    (hfg : ∀ cur path loc, t.isDir cur = true →
      (f cur path = some loc ↔ ∃ r, g cur path = some r ∧ r.There t ∧ r.last = loc))
    {cur next : Loc} {name : Str} :
    t.step f cur name = some next ↔
      ∃ r, t.trailStep g cur name = some r ∧ r.There t ∧ r.last = next := by
  have hone : ∀ {last : Loc}, t.isDir cur = true → (t.node? last).isSome = true →
      (some last = some next ↔
        ∃ r : Trail, some (⟨[cur], last⟩ : Trail) = some r ∧ r.There t ∧ r.last = next) := by
    intro last hdir hlast
    constructor
    · intro h
      cases h
      exact ⟨_, rfl, ⟨by simpa using hdir, hlast⟩, rfl⟩
    · rintro ⟨r, hr, _, rfl⟩
      cases hr
      rfl
  by_cases hdir : t.isDir cur = true
  · unfold step trailStep
    rw [if_pos hdir]
    split
    · exact hone hdir (isSome_of_isDir hdir)
    · split
      · exact hone hdir (isSome_of_isDir (isDir_dropLast hdir))
      · cases hnode : t.node? (cur ++ [name]) with
        | none =>
            -- a step needs something to be there; a trail does not
            constructor
            · intro h
              cases h
            · rintro ⟨r, hr, hthere, _⟩
              cases hr
              have hlast := hthere.last
              simp [hnode] at hlast
        | some node =>
            cases node with
            | link target =>
                -- the directory the link is in is on the trail, too
                refine (hfg cur target next hdir).trans ?_
                constructor
                · rintro ⟨r, hr, hthere, rfl⟩
                  refine ⟨⟨cur :: r.dirs, r.last⟩, by simp [hr], ⟨?_, hthere.last⟩, rfl⟩
                  simpa [hdir] using hthere.dirs
                · rintro ⟨r, hr, hthere, rfl⟩
                  rcases Option.map_eq_some_iff.1 hr with ⟨r', hr', rfl⟩
                  exact ⟨r', hr', ⟨fun d hd => hthere.dirs d (by simp [hd]), hthere.last⟩, rfl⟩
            | _ => exact hone hdir (by simp [hnode])
  · constructor
    · intro h
      exact absurd (isDir_of_step h) hdir
    · rintro ⟨r, hr, hthere, _⟩
      exact absurd (hthere.dirs cur (mem_dirs_of_trailStep hr)) hdir

theorem walk_iff
    (hfg : ∀ cur path loc, t.isDir cur = true →
      (f cur path = some loc ↔ ∃ r, g cur path = some r ∧ r.There t ∧ r.last = loc))
    {todo : List Str} :
    ∀ {cur loc : Loc}, (t.node? cur).isSome = true →
      (t.walk f cur todo = some loc ↔
        ∃ r, t.trailWalk g cur todo = some r ∧ r.There t ∧ r.last = loc) := by
  induction todo with
  | nil =>
      intro cur loc hcur
      constructor
      · intro h
        cases h
        exact ⟨⟨[], cur⟩, rfl, ⟨by simp, hcur⟩, rfl⟩
      · rintro ⟨r, hr, _, rfl⟩
        cases hr
        rfl
  | cons name todo ih =>
      intro cur loc _
      rw [walk_cons, Option.bind_eq_some_iff]
      constructor
      · rintro ⟨next, hnext, hrest⟩
        rcases (step_iff hfg).1 hnext with ⟨r, hr, hthere, rfl⟩
        rcases (ih hthere.last).1 hrest with ⟨r', hr', hthere', rfl⟩
        refine ⟨⟨r.dirs ++ r'.dirs, r'.last⟩, by simp [trailWalk, hr, hr'], ⟨?_, hthere'.last⟩, rfl⟩
        intro d hd
        rcases List.mem_append.1 hd with hd | hd
        · exact hthere.dirs d hd
        · exact hthere'.dirs d hd
      · rintro ⟨r, hr, hthere, rfl⟩
        rw [trailWalk, Option.bind_eq_some_iff] at hr
        rcases hr with ⟨first, hfirst, hr⟩
        rcases Option.map_eq_some_iff.1 hr with ⟨rest, hrest, rfl⟩
        -- the rest goes on from the end of the first step, or ends there too
        have hlast : (t.node? first.last).isSome = true := by
          rcases start_of_trailWalk hrest with hmem | hend
          · exact isSome_of_isDir (hthere.dirs _ (by simp [hmem]))
          · rw [hend]
            exact hthere.last
        exact ⟨first.last,
          (step_iff hfg).2 ⟨first, hfirst, ⟨fun d hd => hthere.dirs d (by simp [hd]), hlast⟩, rfl⟩,
          (ih hlast).2 ⟨rest, hrest, ⟨fun d hd => hthere.dirs d (by simp [hd]), hthere.last⟩, rfl⟩⟩

end

theorem follow_iff {t : Tree} :
    ∀ {depth : Nat} {cur : Loc} {path : Str} {loc : Loc}, t.isDir cur = true →
      (t.follow depth cur path = some loc ↔
        ∃ r, t.trailFrom depth cur path = some r ∧ r.There t ∧ r.last = loc) := by
  intro depth
  induction depth with
  | zero =>
      intro cur path loc _
      simp [follow, trailFrom]
  | succ depth ih =>
      intro cur path loc hdir
      by_cases hne : path = []
      · simp [follow, trailFrom, hne]
      · have horigin : t.isDir (origin cur path) = true := by
          unfold origin
          split
          · exact isDir_root t
          · exact hdir
        rw [follow, trailFrom, if_neg hne, if_neg hne]
        exact walk_iff (fun cur path loc h => ih h) (isSome_of_isDir horigin)

theorem stat_iff {t : Tree} {path : Str} {loc : Loc} :
    t.stat path = some loc ↔ ∃ r, t.trail path = some r ∧ r.There t ∧ r.last = loc :=
  follow_iff t.isDir_cwd

/-! ## Trees with the same links -/

/-- The trails of two trees are the same. -/
structure SameLinks (t u : Tree) : Prop where
  cwd : u.cwd = t.cwd
  linkDepth : u.linkDepth = t.linkDepth
  link : ∀ loc target, t.node? loc = some (.link target) ↔ u.node? loc = some (.link target)

namespace SameLinks

variable {t u : Tree}

theorem refl (t : Tree) : SameLinks t t :=
  ⟨rfl, rfl, fun _ _ => Iff.rfl⟩

theorem trans {v : Tree} (h : SameLinks t u) (h' : SameLinks u v) : SameLinks t v :=
  ⟨h'.cwd.trans h.cwd, h'.linkDepth.trans h.linkDepth,
    fun loc target => (h.link loc target).trans (h'.link loc target)⟩

theorem symm (h : SameLinks t u) : SameLinks u t :=
  ⟨h.cwd.symm, h.linkDepth.symm, fun loc target => (h.link loc target).symm⟩

theorem trailStep (h : SameLinks t u) (g : Loc → Str → Option Trail) (cur : Loc) (name : Str) :
    t.trailStep g cur name = u.trailStep g cur name := by
  unfold Tree.trailStep
  have hlink := h.link (cur ++ [name])
  cases hnode : t.node? (cur ++ [name]) <;> cases hnode' : u.node? (cur ++ [name])
  all_goals grind

theorem trailWalk (h : SameLinks t u) (g : Loc → Str → Option Trail) (todo : List Str) :
    ∀ cur : Loc, t.trailWalk g cur todo = u.trailWalk g cur todo := by
  induction todo with
  | nil =>
      intro cur
      rfl
  | cons name todo ih =>
      intro cur
      simp only [Tree.trailWalk, h.trailStep, ih]

theorem trailFrom (h : SameLinks t u) (depth : Nat) : t.trailFrom depth = u.trailFrom depth := by
  induction depth with
  | zero => rfl
  | succ depth ih =>
      funext cur path
      simp only [Tree.trailFrom, ih, h.trailWalk]

theorem trail (h : SameLinks t u) (path : Str) : t.trail path = u.trail path := by
  rw [Tree.trail, Tree.trail, h.cwd, h.linkDepth, h.trailFrom]

end SameLinks

/-! ## Trees that grow -/

/-- From `t` to `u` nothing is lost, and what is new is as `new` says. -/
structure Grows (t : Tree) (new : Loc → Node → Prop) (u : Tree) : Prop where
  cwd : u.cwd = t.cwd
  linkDepth : u.linkDepth = t.linkDepth
  kept : ∀ loc node, t.node? loc = some node → u.node? loc = some node
  new : ∀ loc node, u.node? loc = some node → t.node? loc = some node ∨ new loc node

namespace Grows

variable {t u v : Tree} {new new' : Loc → Node → Prop}

theorem refl (t : Tree) (new : Loc → Node → Prop) : Grows t new t :=
  ⟨rfl, rfl, fun _ _ h => h, fun _ _ h => Or.inl h⟩

theorem trans (h : Grows t new u) (h' : Grows u new v) : Grows t new v where
  cwd := h'.cwd.trans h.cwd
  linkDepth := h'.linkDepth.trans h.linkDepth
  kept := fun loc node hnode => h'.kept loc node (h.kept loc node hnode)
  new := by
    intro loc node hnode
    rcases h'.new loc node hnode with hold | hnew
    · exact h.new loc node hold
    · exact Or.inr hnew

theorem imp (h : Grows t new u) (hnew : ∀ loc node, new loc node → new' loc node) :
    Grows t new' u :=
  ⟨h.cwd, h.linkDepth, h.kept, fun loc node hnode => (h.new loc node hnode).imp_right (hnew loc node)⟩

theorem keeps (h : Grows t new u) : Keeps t u :=
  ⟨h.cwd, h.linkDepth, fun loc node hnode => Or.inl (h.kept loc node hnode)⟩

theorem sameLinks (h : Grows t new u) (hnew : ∀ loc target, ¬ new loc (.link target)) :
    SameLinks t u where
  cwd := h.cwd
  linkDepth := h.linkDepth
  link := by
    intro loc target
    constructor
    · exact h.kept loc _
    · intro hnode
      rcases h.new loc _ hnode with hold | hlink
      · exact hold
      · exact absurd hlink (hnew loc target)

theorem put {dir : Loc} {name : Str} {node : Node} (hfree : t.node? (dir ++ [name]) = none)
    (hnew : new (dir ++ [name]) node) : Grows t new (t.put dir name node) where
  cwd := put_cwd ..
  linkDepth := put_linkDepth ..
  kept := by
    intro loc old hold
    have hne : loc ≠ dir ++ [name] := by
      rintro rfl
      simp [hfree] at hold
    rw [node?_put_ne hne, hold]
  new := by
    intro loc old hold
    rcases of_node_put hold with hold | ⟨rfl, rfl⟩
    · exact Or.inl hold
    · exact Or.inr hnew

end Grows

/-- Only directories are new. -/
def NewDir (_ : Loc) (node : Node) : Prop :=
  node = .dir true

theorem grows_mkdirStep {t t' : Tree} {cur next : Loc} {name : Str}
    (h : t.mkdirStep cur name = .ok (t', next)) : Grows t NewDir t' := by
  rcases mkdirStep_cases h with rfl | ⟨rfl, hfree, _⟩
  · exact .refl _ _
  · exact .put hfree rfl

theorem sameLinks_mkdirStep {t t' : Tree} {cur next : Loc} {name : Str}
    (h : t.mkdirStep cur name = .ok (t', next)) : SameLinks t t' :=
  (grows_mkdirStep h).sameLinks fun _ _ hlink => by cases hlink

/-- `mkdir_p` goes where the trail of its name goes. -/
theorem last_of_mkdirStep {t t' : Tree} {cur next : Loc} {name : Str} {r : Trail}
    (hdir : t.isDir cur = true) (hname : ValidName name ∨ name = ['.'] ∨ name = ['.', '.'])
    (h : t.mkdirStep cur name = .ok (t', next))
    (hr : t.trailStep (t.trailFrom t.linkDepth) cur name = some r) : r.last = next := by
  have hsame := sameLinks_mkdirStep h
  have hstep := (mkdirStep_spec hdir hname h).2.2
  rcases (step_iff fun cur path loc hdir => follow_iff hdir).1 hstep with ⟨r', hr', _, rfl⟩
  rw [← hsame.trailStep, ← hsame.trailFrom, hsame.linkDepth, hr] at hr'
  cases hr'
  rfl

/-- What `mkdir_p` makes is directories that the trail of the path goes through or ends at. -/
theorem grows_mkdirs {todo : List Str}
    (hnames : ∀ name ∈ todo, ValidName name ∨ name = ['.'] ∨ name = ['.', '.']) :
    ∀ {t t' : Tree} {cur loc : Loc} {r : Trail}, t.isDir cur = true →
      t.mkdirs cur todo = .ok (t', loc) →
      t.trailWalk (t.trailFrom t.linkDepth) cur todo = some r →
      Grows t (fun l node => node = .dir true ∧ (l ∈ r.dirs ∨ l = r.last)) t' := by
  induction todo with
  | nil =>
      intro t t' cur loc r _ h _
      cases h
      exact .refl _ _
  | cons name todo ih =>
      intro t t' cur loc r hdir h hr
      rw [mkdirs] at h
      split at h
      · cases h
      · next t₁ next hstep =>
          rcases Option.bind_eq_some_iff.1 hr with ⟨first, hfirst, hr⟩
          rcases Option.map_eq_some_iff.1 hr with ⟨rest, hrest, rfl⟩
          have hname := hnames name (by simp)
          have hlast := last_of_mkdirStep hdir hname hstep hfirst
          have hsame := sameLinks_mkdirStep hstep
          rw [hsame.trailWalk, hsame.trailFrom, ← hsame.linkDepth, hlast] at hrest
          have hdir₁ := (mkdirStep_spec hdir hname hstep).2.1
          have htail := ih (fun x hx => hnames x (by simp [hx])) hdir₁ h hrest
          refine Grows.trans (u := t₁) ?_ (htail.imp ?_)
          · rcases mkdirStep_cases hstep with rfl | ⟨rfl, hfree, hnext⟩
            · exact .refl _ _
            -- the new directory is where the rest of the way starts
            · refine .put hfree ⟨rfl, ?_⟩
              rw [← hnext]
              rcases start_of_trailWalk hrest with hmem | hend
              · exact Or.inl (List.mem_append.2 (Or.inr hmem))
              · exact Or.inr hend
          · rintro l node ⟨hnode, hmem | hend⟩
            · exact ⟨hnode, Or.inl (List.mem_append.2 (Or.inr hmem))⟩
            · exact ⟨hnode, Or.inr hend⟩

theorem grows_mkdir_p {t t' : Tree} {path : Str} {r : Trail} (hr : t.trail path = some r)
    (h : t.mkdir_p (dirname path) = .ok t') :
    Grows t (fun l node => node = .dir true ∧ l ∈ r.dirs) t' := by
  rw [mkdir_p_dirname] at h
  cases hdirs : t.mkdirs (origin t.cwd path) (names (upToName path)) with
  | error e => simp [hdirs, Except.map] at h
  | ok made =>
      have hmade : made.1 = t' := by simpa [hdirs, Except.map] using h
      by_cases hbase : basename path = []
      · rw [names_upToName_of_basename_nil hbase] at hdirs
        cases hdirs
        exact hmade ▸ .refl _ _
      · have hne : path ≠ [] := by
          rintro rfl
          simp [basename, chompSep] at hbase
        rcases components_eq hbase with ⟨tail, hcomp, _⟩
        rw [trail, trailFrom, if_neg hne, hcomp] at hr
        rcases trailWalk_append hr with ⟨front, back, hfront, hback, rfl⟩
        rw [← hmade]
        refine (grows_mkdirs (fun name hname => validName_or_dots hname) (isDir_origin t path) hdirs
          hfront).imp ?_
        rintro l node ⟨hnode, hmem | rfl⟩
        · exact ⟨hnode, List.mem_append.2 (Or.inl hmem)⟩
        -- the last name of the path is taken from there
        · rcases Option.bind_eq_some_iff.1 hback with ⟨first, hfirst, hrest⟩
          rcases Option.map_eq_some_iff.1 hrest with ⟨rest, _, rfl⟩
          have hmem := mem_dirs_of_trailStep hfirst
          exact ⟨hnode, by simp [hmem]⟩

theorem sameLinks_mkdir_p {t t' : Tree} {path : Str}
    (h : t.mkdir_p path = .ok t' ∨ ∃ e, t.mkdir_p path = .error (e, t')) : SameLinks t t' := by
  have hgrows : Grows t NewDir t' := by
    refine mkdir_p_invariant (P := fun u => Grows t NewDir u) ?_ (.refl _ _) h
    intro u dir name hu hfree
    exact hu.trans (.put hfree rfl)
  exact hgrows.sameLinks fun _ _ hlink => by cases hlink

theorem grows_touch {t : Tree} {path : Str} {loc : Loc} (h : t.creates path = some loc) :
    Grows t (fun l node => node = .file true ∧ l = loc) (t.touch path) := by
  rcases creates_spec h with ⟨dir, name, rfl, _, _, hfree⟩
  have htouch : t.touch path = t.put dir name (.file true) := by simp [touch, h]
  rw [htouch]
  exact .put hfree ⟨rfl, rfl⟩

/-! ## Paths that are made -/

section

variable (t : Tree) (paths : List Str)

/-- One of the paths goes on from this place. -/
def Passed (loc : Loc) : Prop :=
  ∃ path ∈ paths, ∃ r, t.trail path = some r ∧ loc ∈ r.dirs

/-- One of the paths ends at this place. -/
def Ended (loc : Loc) : Prop :=
  ∃ path ∈ paths, ∃ r, t.trail path = some r ∧ r.last = loc

/-- Directories on the way of the paths, and files at their ends. -/
def Along (loc : Loc) (node : Node) : Prop :=
  (node = .dir true ∧ Passed t paths loc) ∨ (node = .file true ∧ Ended t paths loc)

/-- All of `paths` were made. -/
structure Made (u : Tree) : Prop extends Grows t (Along t paths) u where
  there : ∀ path ∈ paths, ∃ r, t.trail path = some r ∧ r.There u

/-- Where `path` leads once all of `paths` are made. -/
def WouldLead (path : Str) (loc : Loc) : Prop :=
  ∃ r, t.trail path = some r ∧ r.last = loc ∧
    (∀ dir ∈ r.dirs, t.isDir dir = true ∨ Passed t paths dir) ∧
    ((t.node? loc).isSome = true ∨ Passed t paths loc ∨ Ended t paths loc)

end

theorem Grows.sameLinks_along {t u : Tree} {paths : List Str} (h : Grows t (Along t paths) u) :
    SameLinks t u := by
  refine h.sameLinks ?_
  rintro loc target (⟨hlink, _⟩ | ⟨hlink, _⟩)
  · cases hlink
  · cases hlink

/-- Making one of the paths keeps to what is along them. -/
theorem Grows.make {t u v : Tree} {paths : List Str} {path : Str}
    (h : Grows t (Along t paths) u) (hpath : path ∈ paths) (hdir : u.mkdir_p (dirname path) = .ok v)
    (hcan : v.stat path = none → ∃ loc, v.creates path = some loc) {w : Tree}
    (hw : w = if (v.stat path).isSome then v else v.touch path) :
    Grows t (Along t paths) w ∧ Keeps u w ∧ (w.stat path).isSome = true := by
  have hsame := h.sameLinks_along
  have hsame' := sameLinks_mkdir_p (Or.inl hdir)
  -- the directories in front of the path are on its trail
  have hdirs : ∀ {r : Trail}, v.trail path = some r →
      Grows t (Along t paths) v := by
    intro r hr
    rw [← hsame'.trail] at hr
    refine h.trans ((grows_mkdir_p hr hdir).imp ?_)
    rintro loc node ⟨hnode, hmem⟩
    rw [← hsame.trail] at hr
    exact Or.inl ⟨hnode, path, hpath, r, hr, hmem⟩
  have hkeeps := (mkdir_p_dirname_spec hdir).1
  cases hstat : v.stat path with
  | some loc =>
      rcases Tree.stat_iff.1 hstat with ⟨r, hr, _, _⟩
      have hv : w = v := by simpa [hstat] using hw
      rw [hv]
      exact ⟨hdirs hr, hkeeps, by simp [hstat]⟩
  | none =>
      rcases hcan hstat with ⟨loc, hcreates⟩
      have hv : w = v.touch path := by simpa [hstat] using hw
      have hgrows := grows_touch hcreates
      have htouched := stat_touch hcreates
      have hlinks : SameLinks v (v.touch path) := hgrows.sameLinks fun _ _ hlink => by cases hlink.1
      rcases Tree.stat_iff.1 htouched with ⟨r, hr, _, hlast⟩
      rw [← hlinks.trail] at hr
      rw [hv]
      refine ⟨(hdirs hr).trans (hgrows.imp ?_), hkeeps.trans hgrows.keeps, by simp [htouched]⟩
      rintro l node ⟨hnode, rfl⟩
      rw [← hsame'.trail, ← hsame.trail] at hr
      exact Or.inr ⟨hnode, path, hpath, r, hr, hlast⟩

namespace Made

variable {t u : Tree} {paths : List Str}

theorem isDir_iff (h : Made t paths u) {loc : Loc} :
    u.isDir loc = true ↔ t.isDir loc = true ∨ Passed t paths loc := by
  constructor
  · intro hdir
    rcases Tree.isDir_iff.1 hdir with ⟨w, hnode⟩
    rcases h.new loc _ hnode with hold | ⟨_, hpassed⟩ | ⟨hfile, _⟩
    · exact Or.inl (Tree.isDir_iff.2 ⟨w, hold⟩)
    · exact Or.inr hpassed
    · cases hfile
  · rintro (hdir | ⟨path, hpath, r, hr, hmem⟩)
    · exact h.keeps.isDir hdir
    · rcases h.there path hpath with ⟨r', hr', hthere⟩
      rw [hr] at hr'
      cases hr'
      exact hthere.dirs loc hmem

theorem isSome_iff (h : Made t paths u) {loc : Loc} :
    (u.node? loc).isSome = true ↔
      (t.node? loc).isSome = true ∨ Passed t paths loc ∨ Ended t paths loc := by
  constructor
  · intro hsome
    rcases Option.isSome_iff_exists.1 hsome with ⟨node, hnode⟩
    rcases h.new loc _ hnode with hold | ⟨_, hpassed⟩ | ⟨_, hended⟩
    · exact Or.inl (by simp [hold])
    · exact Or.inr (Or.inl hpassed)
    · exact Or.inr (Or.inr hended)
  · rintro (hsome | hpassed | ⟨path, hpath, r, hr, rfl⟩)
    · rcases Option.isSome_iff_exists.1 hsome with ⟨node, hnode⟩
      simp [h.kept loc node hnode]
    · exact isSome_of_isDir (h.isDir_iff.2 (Or.inr hpassed))
    · rcases h.there path hpath with ⟨r', hr', hthere⟩
      rw [hr] at hr'
      cases hr'
      exact hthere.last

theorem stat_iff (h : Made t paths u) {path : Str} {loc : Loc} :
    u.stat path = some loc ↔ WouldLead t paths path loc := by
  rw [Tree.stat_iff, ← h.sameLinks_along.trail]
  constructor
  · rintro ⟨r, hr, hthere, rfl⟩
    exact ⟨r, hr, rfl, fun dir hdir => h.isDir_iff.1 (hthere.dirs dir hdir), h.isSome_iff.1 hthere.last⟩
  · rintro ⟨r, hr, rfl, hdirs, hlast⟩
    exact ⟨r, hr, ⟨fun dir hdir => h.isDir_iff.2 (hdirs dir hdir), h.isSome_iff.2 hlast⟩, rfl⟩

/-- A place has a file if it had one, or if one was made there. -/
theorem file_iff (h : Made t paths u) {loc : Loc} :
    u.node? loc = some (.file true) ↔
      t.node? loc = some (.file true) ∨
        (t.node? loc = none ∧ Ended t paths loc ∧ ¬ Passed t paths loc) := by
  constructor
  · intro hfile
    cases hold : t.node? loc with
    | some node =>
        left
        rw [← h.kept loc node hold, hfile]
    | none =>
        right
        refine ⟨rfl, ?_, ?_⟩
        · rcases h.new loc _ hfile with hold' | ⟨hdir, _⟩ | ⟨_, hended⟩
          · simp [hold] at hold'
          · cases hdir
          · exact hended
        · intro hpassed
          have hdir := h.isDir_iff.2 (Or.inr hpassed)
          simp [isDir, hfile, Node.isDir] at hdir
  · rintro (hold | ⟨hnone, hended, hnot⟩)
    · exact h.kept loc _ hold
    · have hsome := h.isSome_iff.2 (Or.inr (Or.inr hended))
      rcases Option.isSome_iff_exists.1 hsome with ⟨node, hnode⟩
      rcases h.new loc _ hnode with hold | ⟨_, hpassed⟩ | ⟨rfl, _⟩
      · simp [hnone] at hold
      · exact absurd hpassed hnot
      · exact hnode

end Made

end Tree

end Ruby
