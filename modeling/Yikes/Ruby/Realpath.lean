import Mathlib.Data.Finset.Card
import Yikes.Ruby.Tree

/-!
# Realpath — `Pathname#realpath`

Ruby resolves a path by itself, name by name, and reads the links it meets.  It does not ask that what
stands in front of a `.`, a `..` or a last separator is a directory, and it knows no limit for links,
but it does not go in circles.

* `Finds` says where the names of a path lead, however many links there are on the way;
* the depth `realpath` goes down to is deep enough (`realpath_of_realFollow`), so it finds where the
  names lead (`realpath_eq_ok_iff`);
* `realpath_of_stat` says that what the system resolves Ruby resolves to the same place.

The text of a real path names its place wherever it is read (`Loc.absolute_text`), and its own real
path is the path itself (`Tree.realpath_text`).
-/

namespace Ruby

/-- The path text of a place. -/
def Loc.text (loc : Loc) : Str :=
  if loc = [] then ['/'] else loc.flatMap fun name => '/' :: name

namespace Tree

/-- One name of a path. -/
def realStep (t : Tree) (follow : Loc → Str → Except Errno Loc) (cur : Loc) (name : Str) :
    Except Errno Loc :=
  if name = ['.'] then .ok cur
  else if name = ['.', '.'] then .ok cur.dropLast
  else
    match t.node? (cur ++ [name]) with
    -- what `lstat` says
    | none => .error (if t.isDir cur then .ENOENT else .ENOTDIR)
    | some (.link target) => follow cur target
    | some _ => .ok (cur ++ [name])

def realFollow (t : Tree) : Nat → Loc → Str → Except Errno Loc
  | 0, _, _ => .error .ELOOP
  | depth + 1, cur, path =>
      (File.names path).foldlM (t.realStep (t.realFollow depth)) (origin cur path)

/-- Links nested deeper than there are nodes go in a circle. -/
def realpath (t : Tree) (path : Str) : Except Errno Loc :=
  t.realFollow (t.nodes.keys.length + 1) t.cwd path

/-- From a place, the names lead to another one; what is on the way has to be there. -/
inductive Finds (t : Tree) : Loc → List Str → Loc → Prop
  | nil (cur : Loc) : Finds t cur [] cur
  | dot {cur loc : Loc} {todo : List Str} (hrest : Finds t cur todo loc) :
      Finds t cur (['.'] :: todo) loc
  | up {cur loc : Loc} {todo : List Str} (hrest : Finds t cur.dropLast todo loc) :
      Finds t cur (['.', '.'] :: todo) loc
  | down {cur loc : Loc} {name : Str} {todo : List Str} {node : Node} (hdot : name ≠ ['.'])
      (hup : name ≠ ['.', '.']) (hnode : t.node? (cur ++ [name]) = some node)
      (hlink : ∀ target, node ≠ .link target) (hrest : Finds t (cur ++ [name]) todo loc) :
      Finds t cur (name :: todo) loc
  | link {cur next loc : Loc} {name target : Str} {todo : List Str} (hdot : name ≠ ['.'])
      (hup : name ≠ ['.', '.']) (hnode : t.node? (cur ++ [name]) = some (.link target))
      (hlink : Finds t (origin cur target) (File.names target) next) (hrest : Finds t next todo loc) :
      Finds t cur (name :: todo) loc

/-! ## Going down deeper -/

section

variable {α β ε : Type} {f g : α → β → Except ε α}

theorem foldlM_ok_mono (hstep : ∀ cur x next, f cur x = .ok next → g cur x = .ok next) :
    ∀ {todo : List β} {cur last : α},
      todo.foldlM f cur = .ok last → todo.foldlM g cur = .ok last := by
  intro todo
  induction todo with
  | nil =>
      intro cur last h
      exact h
  | cons x todo ih =>
      intro cur last h
      rw [List.foldlM_cons] at h ⊢
      cases hx : f cur x with
      | error e => simp [hx, bind, Except.bind] at h
      | ok next =>
          rw [hx] at h
          rw [hstep cur x next hx]
          exact ih h

/-- A fold that does not end with the error `e` meets no step that does. -/
theorem foldlM_of_ne_error {e : ε} (hstep : ∀ cur x, f cur x ≠ .error e → g cur x = f cur x) :
    ∀ {todo : List β} {cur : α},
      todo.foldlM f cur ≠ .error e → todo.foldlM g cur = todo.foldlM f cur := by
  intro todo
  induction todo with
  | nil =>
      intro cur _
      rfl
  | cons x todo ih =>
      intro cur h
      rw [List.foldlM_cons] at h ⊢
      rw [List.foldlM_cons]
      cases hx : f cur x with
      | error e' =>
          rw [hx] at h
          have hne : e' ≠ e := by
            rintro rfl
            exact h rfl
          rw [hstep cur x (by simp [hx, hne]), hx]
          rfl
      | ok next =>
          rw [hx] at h
          rw [hstep cur x (by simp [hx]), hx]
          exact ih h

end

theorem realFollow_succ {t : Tree} :
    ∀ (depth : Nat) (cur : Loc) (path : Str), t.realFollow depth cur path ≠ .error .ELOOP →
      t.realFollow (depth + 1) cur path = t.realFollow depth cur path := by
  intro depth
  induction depth with
  | zero =>
      intro cur path h
      exact absurd rfl h
  | succ depth ih =>
      intro cur path h
      refine foldlM_of_ne_error ?_ h
      intro cur name hstep
      unfold realStep at hstep ⊢
      split
      · rfl
      · next hdot =>
          rw [if_neg hdot] at hstep
          split
          · rfl
          · next hup =>
              rw [if_neg hup] at hstep
              cases hnode : t.node? (cur ++ [name]) with
              | none => rfl
              | some node =>
                  cases node with
                  | link target => exact ih _ _ (by simpa [hnode] using hstep)
                  | _ => rfl

theorem realFollow_add {t : Tree} {depth : Nat} {cur : Loc} {path : Str}
    (h : t.realFollow depth cur path ≠ .error .ELOOP) (more : Nat) :
    t.realFollow (depth + more) cur path = t.realFollow depth cur path := by
  induction more with
  | zero => rfl
  | succ more ih => rw [← Nat.add_assoc, realFollow_succ _ _ _ (by rwa [ih]), ih]

theorem realStep_ok_mono {t : Tree} {f g : Loc → Str → Except Errno Loc}
    (hfg : ∀ cur path loc, f cur path = .ok loc → g cur path = .ok loc) (cur : Loc) (name : Str)
    (next : Loc) (h : t.realStep f cur name = .ok next) : t.realStep g cur name = .ok next := by
  unfold realStep at h ⊢
  split
  · next hdot => simpa [hdot] using h
  · next hdot =>
      rw [if_neg hdot] at h
      split
      · next hup => simpa [hup] using h
      · next hup =>
          rw [if_neg hup] at h
          cases hnode : t.node? (cur ++ [name]) with
          | none => simp [hnode] at h
          | some node =>
              cases node with
              | link target => exact hfg _ _ _ (by simpa [hnode] using h)
              | _ => simpa [hnode] using h

/-! ## Deep enough -/

section

variable (t : Tree)

/-- The link at `loc` does not lead deeper than `depth`. -/
def Settled (depth : Nat) (loc : Loc) : Prop :=
  ∀ target, t.node? loc = some (.link target) → t.realFollow depth loc.dropLast target ≠ .error .ELOOP

/-- At this depth no link has an answer that it does not have one level further up. -/
def Steady (depth : Nat) : Prop :=
  ∀ cur name target, t.node? (cur ++ [name]) = some (.link target) →
    t.realFollow (depth + 1) cur target = t.realFollow depth cur target

variable {t}

theorem Steady.realFollow {depth : Nat} (h : t.Steady depth) (cur : Loc) (path : Str) :
    t.realFollow (depth + 2) cur path = t.realFollow (depth + 1) cur path := by
  have hstep : t.realStep (t.realFollow (depth + 1)) = t.realStep (t.realFollow depth) := by
    funext cur name
    unfold realStep
    split
    · rfl
    · split
      · rfl
      · split
        · rfl
        · next target hnode => exact h _ _ _ hnode
        · rfl
  exact congrArg (fun step => (File.names path).foldlM step (origin cur path)) hstep

theorem Steady.later {depth : Nat} (h : t.Steady depth) (more : Nat) : t.Steady (depth + more) := by
  induction more with
  | zero => exact h
  | succ more ih => exact fun cur _ target _ => ih.realFollow cur target

theorem Steady.add {depth : Nat} (h : t.Steady depth) (more : Nat) (cur : Loc) (path : Str) :
    t.realFollow (depth + 1 + more) cur path = t.realFollow (depth + 1) cur path := by
  induction more with
  | zero => rfl
  | succ more ih =>
      have hdeeper : depth + 1 + (more + 1) = depth + more + 2 := by omega
      have hlower : depth + more + 1 = depth + 1 + more := by omega
      rw [hdeeper, (h.later more).realFollow, hlower, ih]

theorem Settled.succ {depth : Nat} {loc : Loc} (h : t.Settled depth loc) :
    t.Settled (depth + 1) loc := by
  intro target hnode
  rw [realFollow_succ depth _ _ (h target hnode)]
  exact h target hnode

/-- While the depth is not steady, going down settles one more link. -/
theorem exists_settled {depth : Nat} (h : ¬ t.Steady depth) :
    ∃ loc ∈ t.nodes.keys, ¬ t.Settled depth loc ∧ t.Settled (depth + 1) loc := by
  unfold Steady at h
  push Not at h
  rcases h with ⟨cur, name, target, hnode, hne⟩
  have hkey : cur ++ [name] ∈ t.nodes.keys := by
    have hlookup : t.nodes.lookup (cur ++ [name]) = some (.link target) := by
      simpa [node?] using hnode
    exact AList.mem_keys.1 (AList.lookup_isSome.1 (by simp [hlookup]))
  have hold : t.realFollow depth cur target = .error .ELOOP := by
    by_contra hold
    exact hne (realFollow_succ depth cur target hold)
  refine ⟨cur ++ [name], hkey, ?_, ?_⟩
  · intro hsettled
    exact hsettled target hnode (by simpa using hold)
  · intro target' hnode'
    rw [hnode] at hnode'
    cases hnode'
    rw [hold] at hne
    simpa using hne

open Classical in
/-- There are no more links to settle than there are nodes. -/
theorem exists_steady (t : Tree) : ∃ depth ≤ t.nodes.keys.length, t.Steady depth := by
  by_contra hnone
  push Not at hnone
  have hcount : ∀ depth ≤ t.nodes.keys.length + 1,
      depth ≤ (t.nodes.keys.toFinset.filter (t.Settled depth)).card := by
    intro depth
    induction depth with
    | zero => exact fun _ => Nat.zero_le _
    | succ depth ih =>
        intro hle
        have hle' : depth ≤ t.nodes.keys.length := by omega
        rcases exists_settled (hnone depth hle') with ⟨loc, hkey, hnot, hsettled⟩
        refine Nat.lt_of_le_of_lt (ih (by omega)) (Finset.card_lt_card ?_)
        refine (Finset.ssubset_iff_of_subset ?_).2 ⟨loc, ?_, ?_⟩
        · exact Finset.monotone_filter_right _ fun _ _ h => h.succ
        · simp [hkey, hsettled]
        · simp [hnot]
  have hall := hcount _ (Nat.le_refl _)
  have hfilter := Finset.card_filter_le t.nodes.keys.toFinset (t.Settled (t.nodes.keys.length + 1))
  have hkeys := List.toFinset_card_le t.nodes.keys
  omega

/-- Whatever a depth answers, unless it is too small to tell, is the answer. -/
theorem realpath_of_realFollow {depth : Nat} {path : Str}
    (h : t.realFollow depth t.cwd path ≠ .error .ELOOP) :
    t.realpath path = t.realFollow depth t.cwd path := by
  rcases exists_steady t with ⟨steady, hle, hsteady⟩
  rcases Nat.exists_eq_add_of_le (Nat.add_le_add_right hle 1) with ⟨more, hmore⟩
  -- both are what the steady depth answers
  calc
    t.realpath path = t.realFollow (steady + 1 + more) t.cwd path := by rw [realpath, hmore]
    _ = t.realFollow (steady + 1) t.cwd path := hsteady.add more _ _
    _ = t.realFollow (steady + 1 + depth) t.cwd path := (hsteady.add depth _ _).symm
    _ = t.realFollow depth t.cwd path := by rw [Nat.add_comm, realFollow_add h]

end

/-! ## Where the names lead -/

section

variable {t : Tree}

theorem finds_of_foldlM {follow : Loc → Str → Except Errno Loc}
    (hfollow : ∀ cur path loc, follow cur path = .ok loc →
      t.Finds (origin cur path) (File.names path) loc) {todo : List Str} :
    ∀ {cur loc : Loc}, todo.foldlM (t.realStep follow) cur = .ok loc → t.Finds cur todo loc := by
  induction todo with
  | nil =>
      intro cur loc h
      cases h
      exact .nil cur
  | cons name todo ih =>
      intro cur loc h
      rw [List.foldlM_cons] at h
      cases hstep : t.realStep follow cur name with
      | error e => simp [hstep, bind, Except.bind] at h
      | ok next =>
          rw [hstep] at h
          have hrest : t.Finds next todo loc := ih h
          -- one rule of the relation for each branch of the step
          unfold realStep at hstep
          split at hstep
          · next hdot =>
              cases hstep
              exact hdot ▸ .dot hrest
          · next hdot =>
              split at hstep
              · next hup =>
                  cases hstep
                  exact hup ▸ .up hrest
              · next hup =>
                  split at hstep
                  · cases hstep
                  · next hnode => exact .link hdot hup hnode (hfollow _ _ _ hstep) hrest
                  · next hlink hnode =>
                      cases hstep
                      exact .down hdot hup hnode hlink hrest

theorem finds_of_realFollow :
    ∀ {depth : Nat} {cur : Loc} {path : Str} {loc : Loc}, t.realFollow depth cur path = .ok loc →
      t.Finds (origin cur path) (File.names path) loc := by
  intro depth
  induction depth with
  | zero =>
      intro cur path loc h
      cases h
  | succ depth ih => exact fun h => finds_of_foldlM (fun _ _ _ h' => ih h') h

/-- A larger depth finds what a smaller one does. -/
theorem foldlM_deeper {depth : Nat} {cur loc : Loc} {todo : List Str} (more : Nat)
    (h : todo.foldlM (t.realStep (t.realFollow depth)) cur = .ok loc) :
    todo.foldlM (t.realStep (t.realFollow (depth + more))) cur = .ok loc := by
  refine foldlM_ok_mono (realStep_ok_mono ?_) h
  intro cur path loc hfollow
  rw [realFollow_add (by simp [hfollow]), hfollow]

/-- Every way is found at some depth. -/
theorem Finds.exists_depth {cur loc : Loc} {todo : List Str} (h : t.Finds cur todo loc) :
    ∃ depth, todo.foldlM (t.realStep (t.realFollow depth)) cur = .ok loc := by
  induction h with
  | nil cur => exact ⟨0, rfl⟩
  | dot _ ih =>
      rcases ih with ⟨depth, hrest⟩
      exact ⟨depth, by rw [List.foldlM_cons]; exact hrest⟩
  | up _ ih =>
      rcases ih with ⟨depth, hrest⟩
      exact ⟨depth, by rw [List.foldlM_cons]; exact hrest⟩
  | @down cur loc name todo node hdot hup hnode hlink _ ih =>
      rcases ih with ⟨depth, hrest⟩
      refine ⟨depth, ?_⟩
      have hstep : t.realStep (t.realFollow depth) cur name = .ok (cur ++ [name]) := by
        cases node with
        | link target => exact absurd rfl (hlink target)
        | _ => simp [realStep, hdot, hup, hnode]
      rw [List.foldlM_cons, hstep]
      exact hrest
  | @link cur next loc name target todo hdot hup hnode _ _ ihlink ihrest =>
      rcases ihlink with ⟨inner, hinner⟩
      rcases ihrest with ⟨depth, hrest⟩
      -- deep enough for the link and for what is behind it
      refine ⟨inner + 1 + depth, ?_⟩
      have hfollow : t.realFollow (inner + 1) cur target = .ok next := hinner
      have hstep : t.realStep (t.realFollow (inner + 1 + depth)) cur name = .ok next := by
        rw [realStep, if_neg hdot, if_neg hup, hnode]
        dsimp only
        rw [realFollow_add (by simp [hfollow]), hfollow]
      rw [List.foldlM_cons, hstep, Nat.add_comm]
      exact foldlM_deeper (inner + 1) hrest

theorem Finds.unique {cur loc loc' : Loc} {todo : List Str} (h : t.Finds cur todo loc)
    (h' : t.Finds cur todo loc') : loc = loc' := by
  rcases h.exists_depth with ⟨depth, hfold⟩
  rcases h'.exists_depth with ⟨depth', hfold'⟩
  have hdeep := foldlM_deeper depth' hfold
  rw [Nat.add_comm, foldlM_deeper depth hfold'] at hdeep
  exact (Except.ok.inj hdeep).symm

theorem finds_append {xs ys : List Str} {cur loc : Loc} :
    t.Finds cur (xs ++ ys) loc ↔ ∃ next, t.Finds cur xs next ∧ t.Finds next ys loc := by
  constructor
  · induction xs generalizing cur with
    | nil => exact fun h => ⟨cur, .nil cur, h⟩
    | cons name xs ih =>
        intro h
        cases h with
        | dot hrest =>
            rcases ih hrest with ⟨next, hfront, hback⟩
            exact ⟨next, .dot hfront, hback⟩
        | up hrest =>
            rcases ih hrest with ⟨next, hfront, hback⟩
            exact ⟨next, .up hfront, hback⟩
        | down hdot hup hnode hlink hrest =>
            rcases ih hrest with ⟨next, hfront, hback⟩
            exact ⟨next, .down hdot hup hnode hlink hfront, hback⟩
        | link hdot hup hnode hlink hrest =>
            rcases ih hrest with ⟨next, hfront, hback⟩
            exact ⟨next, .link hdot hup hnode hlink hfront, hback⟩
  · rintro ⟨next, hfront, hback⟩
    induction hfront with
    | nil _ => exact hback
    | dot _ ih => exact .dot (ih hback)
    | up _ ih => exact .up (ih hback)
    | down hdot hup hnode hlink _ ih => exact .down hdot hup hnode hlink (ih hback)
    | link hdot hup hnode hlink _ _ ih => exact .link hdot hup hnode hlink (ih hback)

/-- Ruby finds where the names lead. -/
theorem realpath_eq_ok_iff {path : Str} {loc : Loc} :
    t.realpath path = .ok loc ↔ t.Finds (origin t.cwd path) (File.names path) loc := by
  constructor
  · exact finds_of_realFollow
  · intro h
    rcases h.exists_depth with ⟨depth, hfold⟩
    have hfollow : t.realFollow (depth + 1) t.cwd path = .ok loc := hfold
    have hdeep : t.realFollow (depth + 1) t.cwd path ≠ .error .ELOOP := by simp [hfollow]
    rw [realpath_of_realFollow hdeep, hfollow]

end

/-! ## Ruby and the system -/

theorem finds_of_step {t : Tree} {f : Loc → Str → Option Loc}
    (hf : ∀ cur path loc, f cur path = some loc → t.Finds (origin cur path) (File.names path) loc)
    {cur next loc : Loc} {name : Str} {todo : List Str} (h : t.step f cur name = some next)
    (hrest : t.Finds next todo loc) : t.Finds cur (name :: todo) loc := by
  rw [step, if_pos (isDir_of_step h)] at h
  split at h
  · next hdot =>
      cases h
      exact hdot ▸ .dot hrest
  · next hdot =>
      split at h
      · next hup =>
          cases h
          exact hup ▸ .up hrest
      · next hup =>
          split at h
          · cases h
          · next hnode => exact .link hdot hup hnode (hf _ _ _ h) hrest
          · next hlink hnode =>
              cases h
              exact .down hdot hup hnode hlink hrest

theorem finds_of_walk {t : Tree} {f : Loc → Str → Option Loc}
    (hf : ∀ cur path loc, f cur path = some loc → t.Finds (origin cur path) (File.names path) loc)
    {todo : List Str} : ∀ {cur loc : Loc}, t.walk f cur todo = some loc → t.Finds cur todo loc := by
  induction todo with
  | nil =>
      intro cur loc h
      cases h
      exact .nil cur
  | cons name todo ih =>
      intro cur loc h
      rw [walk_cons] at h
      rcases Option.bind_eq_some_iff.1 h with ⟨next, hstep, hrest⟩
      exact finds_of_step hf hstep (ih hrest)

theorem finds_of_follow {t : Tree} :
    ∀ {depth : Nat} {cur : Loc} {path : Str} {loc : Loc},
      t.follow depth cur path = some loc → t.Finds (origin cur path) (File.names path) loc := by
  intro depth
  induction depth with
  | zero =>
      intro cur path loc h
      cases h
  | succ depth ih =>
      intro cur path loc h
      by_cases hne : path = []
      · simp [follow, hne] at h
      · have hwalk : t.walk (t.follow depth) (origin cur path) (File.components path) = some loc := by
          simpa [follow, hne] using h
        -- Ruby goes by the names alone; the system may have a `.` behind them
        rw [File.components, walk_append] at hwalk
        rcases Option.bind_eq_some_iff.1 hwalk with ⟨loc', hnames, hlast⟩
        have hloc : loc' = loc := by
          split at hlast
          · -- a last separator stands for a step that stays where it is
            rw [walk_cons] at hlast
            rcases Option.bind_eq_some_iff.1 hlast with ⟨next, hnext, hend⟩
            have hdir := isDir_of_step hnext
            have hsame : loc' = next := by simpa [step, hdir] using hnext
            rw [hsame]
            simpa using hend
          · simpa using hlast
        rw [← hloc]
        exact finds_of_walk (fun _ _ _ h' => ih h') hnames

theorem realpath_of_stat {t : Tree} {path : Str} {loc : Loc} (h : t.stat path = some loc) :
    t.realpath path = .ok loc :=
  realpath_eq_ok_iff.2 (finds_of_follow h)

end Tree

/-! ## Texts of places -/

/-- The pieces between the separators in the text of a place. -/
def Loc.pieces (loc : Loc) : List Str :=
  [] :: if loc = [] then [[]] else loc

theorem Loc.text_eq_intercalate (loc : Loc) : Loc.text loc = ['/'].intercalate (Loc.pieces loc) := by
  have hall : ∀ (name : Str) (names : Loc),
      ((name :: names).flatMap fun name => '/' :: name) = '/' :: ['/'].intercalate (name :: names) := by
    intro name names
    induction names generalizing name with
    | nil => simp
    | cons next names ih =>
        rw [List.flatMap_cons, ih next, List.intercalate_cons_cons]
        simp
  cases loc with
  | nil => rfl
  | cons name names => simp [Loc.text, Loc.pieces, hall, List.intercalate_cons_cons]

theorem Loc.splitOn_text {loc : Loc} (h : ∀ name ∈ loc, ValidName name) :
    (Loc.text loc).splitOn '/' = Loc.pieces loc := by
  rw [Loc.text_eq_intercalate, List.splitOn_intercalate '/' _ (by simp [Loc.pieces])]
  intro piece hpiece
  rcases List.mem_cons.1 hpiece with rfl | hpiece
  · simp
  · split at hpiece
    · rw [List.mem_singleton.1 hpiece]
      simp
    · exact (h piece hpiece).2.1

/-- Name by name, `path` is how the place is written, as far as it goes; its last name need only begin
the name that is there. -/
def Loc.Opens (path : Str) (loc : Loc) : Prop :=
  ∃ front last name rest, path.splitOn '/' = front ++ [last] ∧ Loc.pieces loc = front ++ name :: rest ∧
    last <+: name

/-- The place is not at or below `root`, but beside it, under a name that goes on behind that of
`root`. -/
def Loc.Beside (root loc : Loc) : Prop :=
  ∃ dir name more rest, root = dir ++ [name] ∧ loc = dir ++ (name ++ more) :: rest ∧ more ≠ []

theorem Loc.opens_iff {path : Str} {loc : Loc} (h : ∀ name ∈ loc, ValidName name) :
    Loc.Opens path loc ↔ path <+: Loc.text loc := by
  rw [File.prefix_iff_splitOn '/', Loc.splitOn_text h]
  rfl

/-- The text of a place opens what is at, below and beside that place. -/
theorem Loc.opens_text {root loc : Loc} (hroot : ∀ name ∈ root, ValidName name) :
    Loc.Opens (Loc.text root) loc ↔ root <+: loc ∨ Loc.Beside root loc := by
  unfold Loc.Opens
  rw [Loc.splitOn_text hroot]
  rcases List.eq_nil_or_concat root with rfl | ⟨dir, last, rfl⟩
  · have hall : ∃ name rest, Loc.pieces loc = [[]] ++ name :: rest := by
      cases loc with
      | nil => exact ⟨[], [], rfl⟩
      | cons name rest => exact ⟨name, rest, rfl⟩
    rcases hall with ⟨name, rest, hpieces⟩
    exact iff_of_true ⟨[[]], [], name, rest, rfl, hpieces, List.nil_prefix⟩ (Or.inl List.nil_prefix)
  · rw [List.concat_eq_append] at hroot ⊢
    have hlast := hroot last (by simp)
    have hpieces : Loc.pieces (dir ++ [last]) = ([] :: dir) ++ [last] := by simp [Loc.pieces]
    constructor
    · rintro ⟨front, last', name, rest, hfront, hloc, more, rfl⟩
      rw [hpieces] at hfront
      rcases List.append_inj' hfront rfl with ⟨rfl, hsame⟩
      rw [← List.singleton_inj.1 hsame] at hloc
      have hloc' : loc = dir ++ (last ++ more) :: rest := by
        by_cases hnil : loc = []
        -- the root has no name that could begin with the last one
        · have hempty : [[]] = dir ++ (last ++ more) :: rest := by simpa [Loc.pieces, hnil] using hloc
          cases dir with
          | nil => simp [hlast.1] at hempty
          | cons x dir => simp at hempty
        · simpa [Loc.pieces, hnil] using hloc
      by_cases hmore : more = []
      · left
        rw [hloc', hmore, List.append_nil]
        exact ⟨rest, by simp⟩
      · exact Or.inr ⟨dir, last, more, rest, rfl, hloc', hmore⟩
    · rintro (⟨rest, rfl⟩ | ⟨dir', name, more, rest, hsame, rfl, _⟩)
      · exact ⟨[] :: dir, last, last, rest, hpieces, by simp [Loc.pieces], List.prefix_refl _⟩
      · rcases List.append_inj' hsame rfl with ⟨rfl, hname⟩
        rw [← List.singleton_inj.1 hname]
        exact ⟨[] :: dir, last, last ++ more, rest, hpieces, by simp [Loc.pieces],
          List.prefix_append _ _⟩

theorem Loc.Beside.not_below {root loc : Loc} (h : Loc.Beside root loc) : ¬ root <+: loc := by
  rintro ⟨rest, hrest⟩
  rcases h with ⟨dir, name, more, rest', rfl, rfl, hmore⟩
  rw [List.append_assoc] at hrest
  have hname := (List.cons.inj (List.append_cancel_left hrest)).1
  exact hmore (by simpa using hname)

/-! ## Paths that name a place -/

/-- The place that a path names when it is read in `cwd`, links aside. -/
def Loc.absolute (cwd : Loc) (path : Str) : Loc :=
  (File.names path).foldl
    (fun loc name =>
      if name = ['.'] then loc else if name = ['.', '.'] then loc.dropLast else loc ++ [name])
    (Tree.origin cwd path)

theorem File.names_flatMap {loc : Loc} (h : ∀ name ∈ loc, ValidName name) :
    File.names (loc.flatMap fun name => '/' :: name) = loc := by
  induction loc using List.reverseRecOn with
  | nil => simp
  | append_singleton loc name ih =>
      have hname : ValidName name := h name (by simp)
      have hfront := ih fun x hx => h x (by simp [hx])
      have happ := File.names_append_sep (loc.flatMap fun name => '/' :: name) name
      rw [hfront, File.names_of_no_sep hname.1 hname.2.1] at happ
      simpa using happ

theorem Loc.foldl_absolute {names : Loc} (h : ∀ name ∈ names, ValidName name) (loc : Loc) :
    names.foldl
      (fun loc name =>
        if name = ['.'] then loc else if name = ['.', '.'] then loc.dropLast else loc ++ [name])
      loc = loc ++ names := by
  induction names generalizing loc with
  | nil => simp
  | cons name names ih =>
      have hname : ValidName name := h name (by simp)
      rw [List.foldl_cons, if_neg hname.2.2.1, if_neg hname.2.2.2,
        ih (fun x hx => h x (by simp [hx])), List.append_assoc, List.singleton_append]

theorem Loc.names_text {loc : Loc} (h : ∀ name ∈ loc, ValidName name) :
    File.names (Loc.text loc) = loc := by
  by_cases hroot : loc = []
  · subst hroot
    rfl
  · simpa [Loc.text, hroot] using File.names_flatMap h

theorem Loc.origin_text (loc cwd : Loc) : Tree.origin cwd (Loc.text loc) = [] := by
  cases loc with
  | nil => rfl
  | cons name loc => simp [Loc.text, Tree.origin, File.isAbsolute]

/-- The text of a place names it wherever it is read. -/
theorem Loc.absolute_text {loc : Loc} (h : ∀ name ∈ loc, ValidName name) (cwd : Loc) :
    Loc.absolute cwd (Loc.text loc) = loc := by
  rw [Loc.absolute, Loc.origin_text, Loc.names_text h, Loc.foldl_absolute h, List.nil_append]

namespace Tree

/-- Every place that is there has names that entries can have. -/
theorem validName_of_node? {t : Tree} {loc : Loc} :
    ∀ {node : Node}, t.node? loc = some node → ∀ name ∈ loc, ValidName name := by
  induction loc using List.reverseRecOn with
  | nil => simp
  | append_singleton dir name ih =>
      intro node h x hx
      have hlookup : t.nodes.lookup (dir ++ [name]) = some node := by simpa [node?] using h
      rcases t.below _ _ hlookup with ⟨dir', name', hloc, hname, hdir⟩
      have hparts := List.append_inj' hloc rfl
      rcases List.mem_append.1 hx with hfront | hlast
      · rcases hdir with hroot | ⟨w, hnode⟩
        · rw [hparts.1, hroot] at hfront
          simp at hfront
        · have hnode' : t.node? dir = some (.dir w) := by
            by_cases hnil : dir = []
            · rw [hnil] at hfront
              simp at hfront
            · rw [node?, if_neg hnil, hparts.1]
              exact hnode
          exact ih hnode' x hfront
      · have hsame : name = name' := by simpa using hparts.2
        rw [List.mem_singleton.1 hlast, hsame]
        exact hname

theorem validName_cwd (t : Tree) : ∀ name ∈ t.cwd, ValidName name := by
  rcases isDir_iff.1 t.isDir_cwd with ⟨w, hnode⟩
  exact validName_of_node? hnode

/-- What holds of the root and of every place a name leads to holds of every place a path leads to. -/
theorem Finds.invariant {t : Tree} {P : Loc → Prop} (hroot : P [])
    (hup : ∀ loc, P loc → P loc.dropLast)
    (hdown : ∀ loc name node, t.node? (loc ++ [name]) = some node → (∀ target, node ≠ .link target) →
      P (loc ++ [name]))
    {cur loc : Loc} {todo : List Str} (h : t.Finds cur todo loc) : P cur → P loc := by
  induction h with
  | nil _ => exact id
  | dot _ ih => exact ih
  | up _ ih => exact fun hcur => ih (hup _ hcur)
  | down _ _ hnode hlink _ ih => exact fun _ => ih (hdown _ _ _ hnode hlink)
  | link _ _ _ _ _ ihlink ihrest =>
      intro hcur
      refine ihrest (ihlink ?_)
      unfold origin
      split
      · exact hroot
      · exact hcur

/-- The working directory and the root, where paths start from, are places of this kind. -/
theorem realpath_invariant {t : Tree} {P : Loc → Prop} (hroot : P [])
    (hup : ∀ loc, P loc → P loc.dropLast)
    (hdown : ∀ loc name node, t.node? (loc ++ [name]) = some node → (∀ target, node ≠ .link target) →
      P (loc ++ [name]))
    (hcwd : P t.cwd) {path : Str} {loc : Loc} (h : t.realpath path = .ok loc) : P loc := by
  refine (realpath_eq_ok_iff.1 h).invariant hroot hup hdown ?_
  unfold origin
  split
  · exact hroot
  · exact hcwd

/-- A real path has names that entries can have. -/
theorem validName_realpath {t : Tree} {path : Str} {loc : Loc} (h : t.realpath path = .ok loc) :
    ∀ name ∈ loc, ValidName name := by
  refine realpath_invariant (P := fun loc => ∀ name ∈ loc, ValidName name) (by simp) ?_ ?_
    t.validName_cwd h
  · intro loc hloc name hname
    exact hloc name (List.mem_of_mem_dropLast hname)
  · intro loc name node hnode _
    exact validName_of_node? hnode

/-! ## Real paths are their own -/

/-- A place that is there and is no link. -/
def IsReal (t : Tree) (loc : Loc) : Prop :=
  ∃ node, t.node? loc = some node ∧ ∀ target, node ≠ .link target

theorem isReal_of_isDir {t : Tree} {loc : Loc} (h : t.isDir loc = true) : t.IsReal loc := by
  rcases isDir_iff.1 h with ⟨w, hnode⟩
  exact ⟨.dir w, hnode, by simp⟩

theorem isDir_of_node? {t : Tree} {dir : Loc} {name : Str} {node : Node}
    (h : t.node? (dir ++ [name]) = some node) : t.isDir dir = true := by
  have hlookup : t.nodes.lookup (dir ++ [name]) = some node := by simpa [node?] using h
  rcases t.below _ _ hlookup with ⟨dir', name', hloc, _, hdir⟩
  have hsame : dir = dir' := (List.append_inj' hloc rfl).1
  subst hsame
  by_cases hroot : dir = []
  · rw [hroot]
    exact isDir_root t
  · rcases hdir with hnil | ⟨w, hnode⟩
    · exact absurd hnil hroot
    · exact isDir_iff.2 ⟨w, by simp [node?, hroot, hnode]⟩

theorem isReal_realpath {t : Tree} {path : Str} {loc : Loc} (h : t.realpath path = .ok loc) :
    t.IsReal loc := by
  refine realpath_invariant (P := t.IsReal) (isReal_of_isDir (isDir_root t)) ?_ ?_
    (isReal_of_isDir t.isDir_cwd) h
  · intro loc hloc
    cases loc using List.reverseRecOn with
    | nil => exact hloc
    | append_singleton dir name =>
        rcases hloc with ⟨node, hnode, _⟩
        simpa using isReal_of_isDir (isDir_of_node? hnode)
  · intro loc name node hnode hlink
    exact ⟨node, hnode, hlink⟩

/-- The names of a place that is there lead to it, and no link is met on the way. -/
theorem finds_of_isReal {t : Tree} {loc : Loc} : t.IsReal loc → t.Finds [] loc loc := by
  induction loc using List.reverseRecOn with
  | nil =>
      intro _
      exact .nil []
  | append_singleton dir name ih =>
      rintro ⟨node, hnode, hlink⟩
      have hname : ValidName name := validName_of_node? hnode name (by simp)
      have hdir := ih (isReal_of_isDir (isDir_of_node? hnode))
      exact finds_append.2 ⟨dir, hdir, .down hname.2.2.1 hname.2.2.2 hnode hlink (.nil _)⟩

/-- What is there has only directories above it. -/
theorem isReal_of_front {t : Tree} {front rest : Loc} : t.IsReal (front ++ rest) → t.IsReal front := by
  induction rest using List.reverseRecOn with
  | nil => simp
  | append_singleton rest name ih =>
      rintro ⟨node, hnode, _⟩
      rw [← List.append_assoc] at hnode
      exact ih (isReal_of_isDir (isDir_of_node? hnode))

/-- The text of a place that is there and is no link resolves to it, wherever it is read. -/
theorem realpath_text_of_isReal {t : Tree} {loc : Loc} (h : t.IsReal loc) :
    t.realpath (Loc.text loc) = .ok loc := by
  rcases h with ⟨node, hnode, hlink⟩
  rw [realpath_eq_ok_iff, Loc.origin_text, Loc.names_text (validName_of_node? hnode)]
  exact finds_of_isReal ⟨node, hnode, hlink⟩

/-- So does the text of a real path. -/
theorem realpath_text {t : Tree} {path : Str} {loc : Loc} (h : t.realpath path = .ok loc) :
    t.realpath (Loc.text loc) = .ok loc :=
  realpath_text_of_isReal (isReal_realpath h)

end Tree

end Ruby
