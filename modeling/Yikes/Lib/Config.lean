import Mathlib.Data.Char
import Mathlib.Data.List.Lex
import Yikes.Ruby.Realpath
import Yikes.Ruby.Uniq

/-!
# Config — the load path (`build/config.rb.erb`)

The load path `$:` lists the directories in which `require` looks, the first one first.
-/

namespace Yikes
namespace Config

open Ruby

variable (t : Tree)

/-- `Pathname.new(x).realpath.to_s` -/
def realPath (x : Str) : Option Str :=
  (t.realpath x).toOption.map Loc.text

def pathFilter (loadPath : List Str) : List Str :=
  -- what `realpath` raises is rescued
  let tmp := loadPath.map fun x => (realPath t x).getD []
  (tmp.insertionSort (· ≤ ·)).eraseDups.foldl
    (fun front x => if x = [] then front else x :: front) []

/-- `none` when `realpath` raises. -/
def pathAdd (loadPath : List Str) (path : Str) : Option (List Str) :=
  (realPath t path).map fun real =>
    pathFilter t (if loadPath.contains real then loadPath else real :: loadPath)

/-- The directories of a load path, in the order in which `require` looks into them. -/
def directories (loadPath : List Str) : List Str :=
  loadPath.filterMap (realPath t)

variable {t}

theorem text_ne_nil (loc : Loc) : Loc.text loc ≠ [] := by
  cases loc <;> simp [Loc.text]

theorem realPath_eq_some {x real : Str} :
    realPath t x = some real ↔ ∃ loc, t.realpath x = .ok loc ∧ Loc.text loc = real := by
  cases h : t.realpath x with
  | error e => simp [realPath, h, Except.toOption]
  | ok loc => simp [realPath, h, Except.toOption]

theorem realPath_ne_nil {x real : Str} (h : realPath t x = some real) : real ≠ [] := by
  rcases realPath_eq_some.1 h with ⟨loc, _, rfl⟩
  exact text_ne_nil loc

/-- A real path is its own. -/
theorem realPath_realPath {x real : Str} (h : realPath t x = some real) :
    realPath t real = some real := by
  rcases realPath_eq_some.1 h with ⟨loc, hloc, rfl⟩
  exact realPath_eq_some.2 ⟨loc, Tree.realpath_text hloc, rfl⟩

theorem mem_directories {loadPath : List Str} {x : Str} :
    x ∈ directories t loadPath ↔ ∃ entry ∈ loadPath, realPath t entry = some x := by
  simp [directories]

theorem realPath_of_mem {loadPath : List Str} {x : Str} (h : x ∈ directories t loadPath) :
    realPath t x = some x := by
  rcases mem_directories.1 h with ⟨entry, _, hx⟩
  exact realPath_realPath hx

/-! ## What `path_filter` leaves -/

theorem foldl_unshift (l front : List Str) :
    l.foldl (fun front x => if x = [] then front else x :: front) front =
      (l.filter (· ≠ [])).reverse ++ front := by
  induction l generalizing front with
  | nil => rfl
  | cons x l ih =>
      by_cases hx : x = []
      · simp [hx, ih]
      · simp [hx, ih]

theorem mem_pathFilter {loadPath : List Str} {x : Str} :
    x ∈ pathFilter t loadPath ↔ x ∈ directories t loadPath := by
  rw [pathFilter, foldl_unshift, mem_directories]
  simp only [List.append_nil, List.mem_reverse, List.mem_filter, List.mem_eraseDups,
    List.mem_insertionSort, List.mem_map, ne_eq, decide_eq_true_eq]
  constructor
  · rintro ⟨⟨entry, hentry, hx⟩, hne⟩
    refine ⟨entry, hentry, ?_⟩
    cases hreal : realPath t entry with
    | none => simp [← hx, hreal] at hne
    | some real => simpa [hreal] using hx
  · rintro ⟨entry, hentry, hx⟩
    exact ⟨⟨entry, hentry, by simp [hx]⟩, realPath_ne_nil hx⟩

/-- The directories are in descending order, and none is there twice. -/
theorem pathFilter_descending (loadPath : List Str) :
    (pathFilter t loadPath).Pairwise (· > ·) := by
  rw [pathFilter, foldl_unshift, List.append_nil, List.pairwise_reverse]
  apply List.Pairwise.filter
  have hsorted := List.pairwise_insertionSort (· ≤ ·)
    (loadPath.map fun x => (realPath t x).getD [])
  exact (pairwise_eraseDups _ hsorted).imp fun h => lt_of_le_of_ne h.1 h.2

/-- On its own result the filter has nothing to do but sort. -/
theorem directories_pathFilter (loadPath : List Str) :
    directories t (pathFilter t loadPath) = pathFilter t loadPath := by
  have hself : ∀ x ∈ pathFilter t loadPath, realPath t x = some x :=
    fun x hx => realPath_of_mem (mem_pathFilter.1 hx)
  rw [directories, List.filterMap_congr hself, List.filterMap_some]

end Config
end Yikes
