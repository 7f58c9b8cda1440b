import Yikes.Lib.Config

/-!
# LoadPath — the order of the load path

`path_filter` sorts the directories and puts them back one in front of the other, so after every
`path_add` they stand in descending order.  What a caller expects of one call is `AddedTo`; it holds
exactly if the directories were in that order before and the new one comes behind all of them in
the alphabet (`addedTo_iff`).

In a run of calls the order of two directories that are in the load path stays as it is when every
call meets that condition (`Adds.before_iff`).
-/

namespace Yikes
namespace Config

open Ruby

variable {t : Tree}

/-- What adding `real` to the load path `old` is for: every directory once, the new one first, and the
others in the order of their first occurrences.  Adding what is listed already moves nothing. -/
structure AddedTo (t : Tree) (old : List Str) (real : Str) (new : List Str) : Prop where
  nodup : new.Nodup
  mem : ∀ x, x ∈ new ↔ x = real ∨ x ∈ directories t old
  first : real ∉ old → new.head? = some real
  order : ∀ x ∈ directories t old, ∀ y ∈ directories t old,
    (x ≠ real ∧ y ≠ real) ∨ real ∈ old → (Before new x y ↔ Before (directories t old) x y)

/-- The directories whose order one call has to keep. -/
def kept (t : Tree) (old : List Str) (real : Str) : List Str :=
  if old.contains real then directories t old else (directories t old).filter (· ≠ real)

/-- The directories are in descending order by their first occurrences, and one that is not listed yet
is the greatest. -/
def InOrder (t : Tree) (old : List Str) (real : Str) : Prop :=
  (kept t old real).eraseDups.Pairwise (· > ·) ∧
    (real ∉ old → ∀ x ∈ directories t old, x ≤ real)

instance (t : Tree) (old : List Str) (real : Str) : Decidable (InOrder t old real) :=
  decidable_of_iff ((kept t old real).eraseDups.Pairwise (· > ·) ∧
    (old.contains real = false → ∀ x ∈ directories t old, x ≤ real)) (by simp [InOrder])

theorem mem_kept {old : List Str} {real x : Str} :
    x ∈ kept t old real ↔ x ∈ directories t old ∧ (x ≠ real ∨ real ∈ old) := by
  by_cases hlisted : real ∈ old
  · simp [kept, hlisted]
  · simp [kept, hlisted]

theorem before_kept {old : List Str} {real x y : Str} (hx : x ∈ kept t old real)
    (hy : y ∈ kept t old real) :
    Before (kept t old real) x y ↔ Before (directories t old) x y := by
  by_cases hlisted : real ∈ old
  · simp [kept, hlisted]
  · have hxreal : x ≠ real := (mem_kept.1 hx).2.resolve_right hlisted
    have hyreal : y ≠ real := (mem_kept.1 hy).2.resolve_right hlisted
    rw [kept, if_neg (by simpa using hlisted)]
    exact before_filter (by simpa using hxreal) (by simpa using hyreal)

/-! ## One call -/

section Call

variable {old : List Str} {path real : Str}

theorem pathAdd_eq (hreal : realPath t path = some real) :
    pathAdd t old path = some (pathFilter t (if real ∈ old then old else real :: old)) := by
  simp [pathAdd, hreal]

variable {new : List Str} (hreal : realPath t path = some real)
  (hadd : pathAdd t old path = some new)

include hreal hadd

theorem descending_pathAdd : new.Pairwise (· > ·) := by
  rw [pathAdd_eq hreal] at hadd
  cases hadd
  exact pathFilter_descending _

theorem mem_pathAdd {x : Str} : x ∈ new ↔ x = real ∨ x ∈ directories t old := by
  have hself := realPath_realPath hreal
  rw [pathAdd_eq hreal] at hadd
  cases hadd
  rw [mem_pathFilter]
  by_cases hlisted : real ∈ old
  · have hmem : real ∈ directories t old := mem_directories.2 ⟨real, hlisted, hself⟩
    rw [if_pos hlisted]
    constructor
    · exact Or.inr
    · rintro (rfl | hx)
      · exact hmem
      · exact hx
  · rw [if_neg hlisted, directories, List.filterMap_cons_some hself, List.mem_cons]
    rfl

theorem directories_pathAdd : directories t new = new := by
  rw [pathAdd_eq hreal] at hadd
  cases hadd
  exact directories_pathFilter _

/-- The greater of two directories stands first. -/
theorem before_pathAdd {x y : Str} (hx : x ∈ directories t old) (hy : y ∈ directories t old) :
    Before new x y ↔ y < x :=
  before_iff_of_descending (descending_pathAdd hreal hadd)
    ((mem_pathAdd hreal hadd).2 (Or.inr hx)) ((mem_pathAdd hreal hadd).2 (Or.inr hy))

theorem head?_pathAdd_iff :
    new.head? = some real ↔ ∀ x ∈ directories t old, x ≤ real := by
  have hdesc := descending_pathAdd hreal hadd
  have hmem := fun x => mem_pathAdd hreal hadd (x := x)
  cases new with
  | nil => simpa using (hmem real).2 (Or.inl rfl)
  | cons a rest =>
      have hrest := (List.pairwise_cons.1 hdesc).1
      rw [List.head?_cons, Option.some.injEq]
      constructor
      · rintro rfl x hx
        rcases List.mem_cons.1 ((hmem x).2 (Or.inr hx)) with rfl | hin
        · exact le_refl _
        · exact le_of_lt (hrest x hin)
      · intro hmax
        rcases List.mem_cons.1 ((hmem real).2 (Or.inl rfl)) with hsame | hin
        · exact hsame.symm
        · -- the head would be a directory that is greater than the new one
          have hlt : real < a := hrest real hin
          rcases (hmem a).1 (by simp) with heq | hdir
          · exact absurd hlt (heq ▸ lt_irrefl a)
          · exact absurd hlt (not_lt_of_ge (hmax a hdir))

/-- The order is kept exactly if it was the descending one. -/
theorem order_iff :
    (∀ x ∈ directories t old, ∀ y ∈ directories t old, (x ≠ real ∧ y ≠ real) ∨ real ∈ old →
      (Before new x y ↔ Before (directories t old) x y)) ↔
    (kept t old real).eraseDups.Pairwise (· > ·) := by
  rw [pairwise_eraseDups_iff]
  constructor
  · intro horder x hx y hy hbefore
    have hx' := mem_kept.1 hx
    have hy' := mem_kept.1 hy
    have hpair : (x ≠ real ∧ y ≠ real) ∨ real ∈ old := by
      rcases hx'.2 with hxreal | hlisted
      · rcases hy'.2 with hyreal | hlisted
        · exact Or.inl ⟨hxreal, hyreal⟩
        · exact Or.inr hlisted
      · exact Or.inr hlisted
    have hnew := (horder x hx'.1 y hy'.1 hpair).2 ((before_kept hx hy).1 hbefore)
    exact (before_pathAdd hreal hadd hx'.1 hy'.1).1 hnew
  · intro hdesc x hx y hy hpair
    have hx' : x ∈ kept t old real := mem_kept.2 ⟨hx, hpair.imp And.left id⟩
    have hy' : y ∈ kept t old real := mem_kept.2 ⟨hy, hpair.imp And.right id⟩
    rw [before_pathAdd hreal hadd hx hy]
    constructor
    · intro hlt
      -- the other way round the old order would not be descending
      rcases before_or_before hx (ne_of_gt hlt) with hxy | hyx
      · exact hxy
      · exact absurd (hdesc y hy' x hx' ((before_kept hy' hx').2 hyx)) (lt_asymm hlt)
    · intro hbefore
      exact hdesc x hx' y hy' ((before_kept hx' hy').2 hbefore)

theorem addedTo_iff : AddedTo t old real new ↔ InOrder t old real := by
  constructor
  · intro h
    refine ⟨(order_iff hreal hadd).1 h.order, ?_⟩
    intro hnew
    exact (head?_pathAdd_iff hreal hadd).1 (h.first hnew)
  · rintro ⟨hdesc, hgreatest⟩
    exact
      { nodup := (descending_pathAdd hreal hadd).imp fun hab => (ne_of_lt hab).symm
        mem := fun x => mem_pathAdd hreal hadd
        first := fun hnew => (head?_pathAdd_iff hreal hadd).2 (hgreatest hnew)
        order := (order_iff hreal hadd).2 hdesc }

end Call

/-! ## Runs of calls -/

/-- Calls of `path_add` that all meet the condition, with what they add. -/
inductive Adds (t : Tree) : List Str → List Str → List Str → Prop
  | done (loadPath : List Str) : Adds t loadPath [] loadPath
  | add {old new last : List Str} {path real : Str} {added : List Str}
      (hreal : realPath t path = some real) (hadd : pathAdd t old path = some new)
      (horder : InOrder t old real) (hrest : Adds t new added last) :
      Adds t old (real :: added) last

/-- Whatever a directory is listed as, its place is kept unless it is added as a new one. -/
theorem Adds.before_iff {old added new : List Str} (h : Adds t old added new) {x y : Str}
    (hx : x ∈ directories t old) (hy : y ∈ directories t old) (hxadded : x ∈ old ∨ x ∉ added)
    (hyadded : y ∈ old ∨ y ∉ added) :
    Before (directories t new) x y ↔ Before (directories t old) x y := by
  induction h with
  | done loadPath => rfl
  | @add old new last path real added hreal hadd horder hrest ih =>
      have hspec := (addedTo_iff hreal hadd).2 horder
      have hself := directories_pathAdd hreal hadd
      -- a directory that this call adds was listed by its real path
      have hpair : (x ≠ real ∧ y ≠ real) ∨ real ∈ old := by
        have hone : ∀ z, z ∈ old ∨ z ∉ real :: added → z ≠ real ∨ real ∈ old := by
          intro z hz
          by_cases hzreal : z = real
          · rcases hz with hold | hnot
            · exact Or.inr (hzreal ▸ hold)
            · exact absurd (by simp [hzreal]) hnot
          · exact Or.inl hzreal
        rcases hone x hxadded with hxreal | hlisted
        · exact (hone y hyadded).imp (fun hyreal => ⟨hxreal, hyreal⟩) id
        · exact Or.inr hlisted
      have hxnew : x ∈ new := (hspec.mem x).2 (Or.inr hx)
      have hynew : y ∈ new := (hspec.mem y).2 (Or.inr hy)
      rw [ih (hself.symm ▸ hxnew) (hself.symm ▸ hynew) (Or.inl hxnew) (Or.inl hynew), hself]
      exact hspec.order x hx y hy hpair

/-- What `path_add` is expected to do with the order of the load path it does exactly when that order
is the descending one; and calls that meet this condition never change which of two directories
`require` finds first. -/
theorem pathAdd_order (t : Tree) :
    (∀ (old : List Str) (path : Str) (loc : Loc), t.stat path = some loc →
      ∃ new, pathAdd t old path = some new ∧
        (AddedTo t old (Loc.text loc) new ↔ InOrder t old (Loc.text loc))) ∧
    ∀ (old added new : List Str), Adds t old added new →
      ∀ x ∈ directories t old, ∀ y ∈ directories t old, x ∈ old ∨ x ∉ added → y ∈ old ∨ y ∉ added →
        (Before (directories t new) x y ↔ Before (directories t old) x y) := by
  constructor
  · intro old path loc hstat
    have hreal : realPath t path = some (Loc.text loc) :=
      realPath_eq_some.2 ⟨loc, Tree.realpath_of_stat hstat, rfl⟩
    exact ⟨_, pathAdd_eq hreal, addedTo_iff hreal (pathAdd_eq hreal)⟩
  · intro old added new hadds x hx y hy hxadded hyadded
    exact hadds.before_iff hx hy hxadded hyadded

/-- Three directories in the root. -/
def sampleTree : Tree :=
  (((Tree.empty 8).put [] "a".toList (.dir true)).put [] "b".toList (.dir true)).put []
    "c".toList (.dir true)

theorem pathAdd_order_sample :
    AddedTo sampleTree ["b/../b".toList, "/x".toList, "/a".toList] "/c".toList
        ["/c".toList, "/b".toList, "/a".toList] ∧
      Before (directories sampleTree ["/c".toList, "/b".toList, "/a".toList]) "/b".toList
        "/a".toList := by
  have hcall : pathAdd sampleTree ["b/../b".toList, "/x".toList, "/a".toList] "c".toList =
      some ["/c".toList, "/b".toList, "/a".toList] := by
    decide
  have horder : InOrder sampleTree ["b/../b".toList, "/x".toList, "/a".toList] "/c".toList := by
    decide
  rcases (pathAdd_order sampleTree).1 ["b/../b".toList, "/x".toList, "/a".toList] "c".toList
    ["c".toList] (by decide) with ⟨new, hadd, hiff⟩
  have hnew : new = ["/c".toList, "/b".toList, "/a".toList] :=
    Option.some.inj (hadd.symm.trans hcall)
  have hadds : Adds sampleTree ["b/../b".toList, "/x".toList, "/a".toList] ["/c".toList]
      ["/c".toList, "/b".toList, "/a".toList] :=
    @Adds.add sampleTree _ _ _ "c".toList _ _ (by decide) hcall horder (.done _)
  refine ⟨?_, ?_⟩
  · rw [← hnew]
    exact hiff.2 horder
  · exact ((pathAdd_order sampleTree).2 _ _ _ hadds "/b".toList (by decide) "/a".toList (by decide)
      (Or.inr (by decide)) (Or.inr (by decide))).2 (by decide)

/-- Adding a third directory turns two others round, and a new directory is put behind an old one. -/
theorem load_path_sorted :
    (pathAdd sampleTree ["/a".toList, "/b".toList] "/c".toList =
        some ["/c".toList, "/b".toList, "/a".toList] ∧
      Before (directories sampleTree ["/a".toList, "/b".toList]) "/a".toList "/b".toList ∧
      ¬ Before ["/c".toList, "/b".toList, "/a".toList] "/a".toList "/b".toList) ∧
    pathAdd sampleTree ["/b".toList] "/a".toList = some ["/b".toList, "/a".toList] := by
  decide

end Config
end Yikes
