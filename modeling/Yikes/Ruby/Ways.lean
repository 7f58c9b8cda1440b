import Yikes.Ruby.Written

/-!
# Ways — directories made along a way without links

A way without links leads to the place that has its names.  It stays one when what is added to the tree
is no link (`Unlinked.mono`), so making the directories of a path leads to that place
(`place_of_mkdirs`), and what is made has names of the path (`of_node_mkdirs`).
-/

namespace Ruby

theorem File.suffix_join2 (a b : Str) : b <:+ File.join2 a b := by
  rw [File.join2_eq, File.landing]
  split
  · exact List.suffix_append _ _
  · exact (List.suffix_append _ _).trans (List.suffix_append _ _)

namespace Tree

open File

/-! ## Ways -/

theorem unlinked_append {t : Tree} {names rest : List Str} :
    ∀ {cur : Loc}, Unlinked t cur (names ++ rest) ↔
      Unlinked t cur names ∧ Unlinked t (cur ++ names.filter fun name => name ≠ ['.']) rest := by
  induction names with
  | nil =>
      intro cur
      simp [Unlinked]
  | cons name names ih =>
      intro cur
      by_cases hdot : name = ['.']
      · simp [Unlinked, hdot, ih]
      · simp [Unlinked, hdot, ih, and_assoc]

theorem filter_text {loc : Loc} (h : ∀ name ∈ loc, ValidName name) :
    loc.filter (fun name => name ≠ ['.']) = loc :=
  List.filter_eq_self.2 fun name hname => by simpa using (h name hname).2.2.1

theorem Unlinked.mono {t u : Tree}
    (hlinks : ∀ loc target, u.node? loc = some (.link target) → t.node? loc = some (.link target))
    {names : List Str} : ∀ {cur : Loc}, Unlinked t cur names → Unlinked u cur names := by
  induction names with
  | nil =>
      intro cur _
      trivial
  | cons name names ih =>
      intro cur h
      by_cases hdot : name = ['.']
      · rw [Unlinked, if_pos hdot] at h ⊢
        exact ih h
      · rw [Unlinked, if_neg hdot] at h ⊢
        exact ⟨h.1, fun target hnode => h.2.1 target (hlinks _ target hnode), ih h.2.2⟩

/-- Names that no link has, as far as they are there, are a way. -/
theorem unlinked_of_names {t : Tree} {names : List Str} (hnames : ∀ name ∈ names, ValidName name) :
    ∀ {cur : Loc}, (∀ front, front ≠ [] → front <+: names →
      ∀ target, t.node? (cur ++ front) ≠ some (.link target)) → Unlinked t cur names := by
  induction names with
  | nil =>
      intro cur _
      trivial
  | cons name names ih =>
      intro cur h
      have hname : ValidName name := hnames name (by simp)
      rw [Unlinked, if_neg hname.2.2.1]
      refine ⟨hname.2.2.2, h [name] (by simp) ⟨names, rfl⟩, ?_⟩
      refine ih (fun x hx => hnames x (by simp [hx])) ?_
      rintro front _ ⟨back, rfl⟩ target
      have hnot := h (name :: front) (by simp) ⟨back, rfl⟩ target
      simpa using hnot

/-! ## What is put into a tree -/

/-- However `mkdir_p` ends, nothing is lost. -/
theorem keeps_mkdir_p {t u : Tree} {path : Str}
    (h : t.mkdir_p path = .ok u ∨ ∃ e, t.mkdir_p path = .error (e, u)) : Keeps t u := by
  have hkept := node_of_mkdir_p h
  exact ⟨hkept.1, hkept.2.1, fun loc node hnode => Or.inl (hkept.2.2 hnode)⟩

/-- A step of `mkdir_p` adds a directory at most, where there is nothing. -/
theorem mkdirStep_cases {t t' : Tree} {cur next : Loc} {name : Str}
    (h : t.mkdirStep cur name = .ok (t', next)) :
    t' = t ∨
      t' = t.put cur name (.dir true) ∧ t.node? (cur ++ [name]) = none ∧ next = cur ++ [name] := by
  unfold mkdirStep at h
  grind

/-- What is made is directories with names of the path. -/
theorem of_node_mkdirs {todo : List Str} :
    ∀ {t t' : Tree} {cur dir : Loc}, t.mkdirs cur todo = .ok (t', dir) →
      ∀ {loc : Loc} {node : Node}, t'.node? loc = some node →
        t.node? loc = some node ∨
          ∃ front name, name ∈ todo ∧ loc = front ++ [name] ∧ node = .dir true := by
  induction todo with
  | nil =>
      intro t t' cur dir h loc node hnode
      cases h
      exact Or.inl hnode
  | cons name todo ih =>
      intro t t' cur dir h loc node hnode
      rw [mkdirs] at h
      split at h
      · cases h
      · next t₁ next hstep =>
          rcases ih h hnode with hold | ⟨front, x, hx, hloc, hdir⟩
          · rcases mkdirStep_cases hstep with rfl | ⟨rfl, _, _⟩
            · exact Or.inl hold
            · rcases of_node_put hold with hold | ⟨hloc, hdir⟩
              · exact Or.inl hold
              · exact Or.inr ⟨cur, name, by simp, hloc, hdir⟩
          · exact Or.inr ⟨front, x, by simp [hx], hloc, hdir⟩

/-- There is nothing at or below this place but the place itself. -/
def Bare (t : Tree) (loc : Loc) : Prop :=
  ∀ name, t.node? (loc ++ [name]) = none

theorem bare_put {t : Tree} {cur : Loc} {name : Str} (hnone : t.node? (cur ++ [name]) = none) :
    (t.put cur name (.dir true)).Bare (cur ++ [name]) := by
  intro below
  by_contra hnode
  rcases Option.ne_none_iff_exists'.1 hnode with ⟨node, hnode⟩
  rcases of_node_put hnode with hold | ⟨hloc, _⟩
  · rcases isDir_iff.1 (isDir_of_node? hold) with ⟨w, hdir⟩
    rw [hnone] at hdir
    cases hdir
  · simp at hloc

theorem bare_of_mkdirStep {t t' : Tree} {cur next : Loc} {name : Str} (hbare : t.Bare cur)
    (hup : name ≠ ['.', '.']) (h : t.mkdirStep cur name = .ok (t', next)) : t'.Bare next := by
  unfold mkdirStep at h
  rw [if_neg hup, hbare name] at h
  split at h
  · cases h
    exact hbare
  · dsimp only at h
    split at h
    · cases h
      exact bare_put (hbare name)
    · cases h

/-- Directories on a way that does not lead up are there already, or the last one is new. -/
theorem bare_of_mkdirs {todo : List Str} :
    ∀ {t t' : Tree} {cur dir : Loc}, ['.', '.'] ∉ todo → t.mkdirs cur todo = .ok (t', dir) →
      (t' = t ∨ t'.Bare dir) ∧ (t.Bare cur → t'.Bare dir) := by
  induction todo with
  | nil =>
      intro t t' cur dir _ h
      cases h
      exact ⟨Or.inl rfl, id⟩
  | cons name todo ih =>
      intro t t' cur dir hup h
      rw [mkdirs] at h
      split at h
      · cases h
      · next t₁ next hstep =>
          rcases ih (fun hmem => hup (by simp [hmem])) h with ⟨hrest, hbare⟩
          have hname : name ≠ ['.', '.'] := fun hname => hup (by simp [hname])
          refine ⟨?_, fun hcur => hbare (bare_of_mkdirStep hcur hname hstep)⟩
          rcases mkdirStep_cases hstep with rfl | ⟨rfl, hnone, rfl⟩
          · exact hrest
          · exact Or.inr (hbare (bare_put hnone))

/-- Along a way without links the directories of the path lead to the place with its names. -/
theorem place_of_mkdirs {t t' : Tree} {todo : List Str} {cur loc : Loc}
    (hnames : ∀ name ∈ todo, ValidName name ∨ name = ['.'] ∨ name = ['.', '.'])
    (hway : Unlinked t cur todo) (hcur : t.isDir cur = true)
    (h : t.mkdirs cur todo = .ok (t', loc)) :
    loc = cur ++ todo.filter fun name => name ≠ ['.'] := by
  refine walk_unlinked (hway.mono ?_) (mkdirs_spec hnames hcur h).2.2
  intro loc target hnode
  rcases of_node_mkdirs h hnode with hold | ⟨front, name, _, _, hdir⟩
  · exact hold
  · cases hdir

/-! ## The last name of a path -/

theorem basename_ne_nil {path : Str} (hne : path ≠ []) (hsep : path.getLast? ≠ some '/') :
    basename path ≠ [] := by
  intro hnil
  have hparts : upToName path ++ basename path = chompSep path := List.rdropWhile_append_rtakeWhile
  have hup : upToName path = path := by
    simpa [hnil, chompSep_of_getLast?_ne hsep] using hparts
  rcases upToName_cases path with hnil' | ⟨u, hu⟩
  · exact hne (hup.symm.trans hnil')
  · exact hsep (by rw [← hup, hu]; simp)

theorem stat_of_dirname {t : Tree} {path : Str} {dir : Loc} (hbase : basename path ≠ [])
    (hsep : path.getLast? ≠ some '/') (hdir : t.stat (dirname path) = some dir) :
    t.stat path = t.step t.links dir (basename path) := by
  have hne : path ≠ [] := by
    rintro rfl
    simp [basename, chompSep] at hbase
  rcases components_eq hbase with ⟨tail, hcomp, htail⟩
  rw [stat_dirname] at hdir
  rw [stat_eq_walk hne, hcomp, htail hsep, walk_append, hdir]
  simp [walk_cons]

theorem step_of_not_link {t : Tree} {f : Loc → Str → Option Loc} {dir : Loc} {name : Str}
    (hdir : t.isDir dir = true) (hname : ValidName name)
    (hlink : ∀ target, t.node? (dir ++ [name]) ≠ some (.link target)) :
    t.step f dir name = (t.node? (dir ++ [name])).map fun _ => dir ++ [name] := by
  rw [step, if_pos hdir, if_neg hname.2.2.1, if_neg hname.2.2.2]
  cases hnode : t.node? (dir ++ [name]) with
  | none => rfl
  | some node =>
      cases node with
      | link target => exact absurd hnode (hlink target)
      | _ => rfl

/-- Making the directory of a path that does not lead up puts nothing at the path itself. -/
theorem stat_of_mkdir_p_dirname {t u : Tree} {path : Str} (hup : ['.', '.'] ∉ names path)
    (hname : ValidName (basename path)) (hsep : path.getLast? ≠ some '/')
    (hnone : t.stat path = none) (h : t.mkdir_p (dirname path) = .ok u) : u.stat path = none := by
  rw [names_eq_append_basename hname.1] at hup
  have hfront : ['.', '.'] ∉ names (upToName path) := fun hmem => hup (by simp [hmem])
  rw [mkdir_p_dirname] at h
  cases hdirs : t.mkdirs (origin t.cwd path) (names (upToName path)) with
  | error e => simp [hdirs, Except.map] at h
  | ok r =>
      rcases r with ⟨v, dir⟩
      have hv : v = u := by simpa [hdirs, Except.map] using h
      subst hv
      rcases (bare_of_mkdirs hfront hdirs).1 with rfl | hbare
      · exact hnone
      · have hspec := mkdirs_spec (fun name hmem => validName_or_dots hmem) (isDir_origin t path) hdirs
        have hstat : v.stat (dirname path) = some dir := by
          rw [stat_dirname, hspec.1.cwd]
          exact hspec.2.2
        have hlink : ∀ target, v.node? (dir ++ [basename path]) ≠ some (.link target) := by
          simp [hbare (basename path)]
        rw [stat_of_dirname hname.1 hsep hstat, step_of_not_link hspec.2.1 hname hlink,
          hbare (basename path)]
        rfl

end Tree

theorem Tree.Keeps.file {t u : Tree} (hk : Tree.Keeps t u) {loc : Loc} {r : Bool}
    (h : t.node? loc = some (.file r)) : u.node? loc = some (.file r) := by
  rcases hk.node loc _ h with hkept | ⟨target, hlink, _⟩
  · exact hkept
  · cases hlink

end Ruby
