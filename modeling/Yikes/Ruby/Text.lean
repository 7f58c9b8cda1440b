import Mathlib.Data.List.DropRight
import Mathlib.Data.List.Infix

/-!
# Text — the string operations of Ruby

A Ruby string is a list of characters.  This file has the operations with a *literal* pattern:

* `Str.index`    : offset of the first occurrence (`String#index`);
* `Str.sub`      : replacement of the first occurrence (`String#sub`);
* `Str.downcase` : `String#downcase`, which leaves everything but ASCII letters alone.

Patterns that are regular expressions are in `Ruby/Regex.lean`.
-/

namespace Ruby

/-- A Ruby string, as the list of its characters. -/
abbrev Str := List Char

namespace Str

/-- `String#index` with a string argument: the offset of its first literal occurrence. -/
def index : Str → Str → Option Nat
  | [], pat => if pat = [] then some 0 else none
  | c :: s, pat =>
      if pat.isPrefixOf (c :: s) then some 0 else (index s pat).map (· + 1)

/-- `String#sub` with a string pattern: the first literal occurrence is replaced. -/
def sub : Str → Str → Str → Str
  | [], pat, rep => if pat = [] then rep else []
  | c :: s, pat, rep =>
      if pat.isPrefixOf (c :: s) then rep ++ (c :: s).drop pat.length else c :: sub s pat rep

/-- `String#downcase`. -/
def downcase (s : Str) : Str :=
  s.map Char.toLower

/-- What begins with the pattern has the replacement in its place. -/
theorem sub_append_self {pat : Str} (hpat : pat ≠ []) (rest rep : Str) :
    sub (pat ++ rest) pat rep = rep ++ rest := by
  cases pat with
  | nil => exact absurd rfl hpat
  | cons c pat =>
      have hfront : (c :: pat).isPrefixOf (c :: (pat ++ rest)) = true :=
        List.isPrefixOf_iff_prefix.2 ⟨rest, rfl⟩
      rw [List.cons_append, sub, if_pos hfront]
      simp

theorem index_eq_zero_iff {s pat : Str} : index s pat = some 0 ↔ pat <+: s := by
  cases s with
  | nil =>
      by_cases hpat : pat = []
      · simp [index, hpat]
      · simp [index, hpat]
  | cons c s =>
      by_cases hpre : pat.isPrefixOf (c :: s)
      · simpa [index, hpre] using List.isPrefixOf_iff_prefix.1 hpre
      · have hnot : ¬ pat <+: c :: s := fun h => hpre (List.isPrefixOf_iff_prefix.2 h)
        simp [index, hpre, hnot]

/-- When the pattern stands at the front, `sub` replaces it there. -/
theorem sub_append (pat rest rep : Str) : sub (pat ++ rest) pat rep = rep ++ rest := by
  cases hs : pat ++ rest with
  | nil =>
      have hpat : pat = [] := (List.append_eq_nil_iff.1 hs).1
      have hrest : rest = [] := (List.append_eq_nil_iff.1 hs).2
      simp [sub, hpat, hrest]
  | cons c s =>
      have hpre : pat.isPrefixOf (c :: s) := by
        rw [List.isPrefixOf_iff_prefix, ← hs]
        exact List.prefix_append pat rest
      have hdrop : (c :: s).drop pat.length = rest := by
        rw [← hs]
        exact List.drop_left
      simp only [sub, hpre, if_true, hdrop]

/-- One occurrence is replaced, if there is any. -/
theorem sub_parts (pat rep : Str) : ∀ x : Str,
    sub x pat rep = x ∨ ∃ a b, x = a ++ (pat ++ b) ∧ sub x pat rep = a ++ (rep ++ b) := by
  intro x
  induction x with
  | nil =>
      by_cases hpat : pat = []
      · exact Or.inr ⟨[], [], by simp [hpat], by simp [sub, hpat]⟩
      · exact Or.inl (by simp [sub, hpat])
  | cons c s ih =>
      rw [sub]
      split
      · next hpre =>
          right
          rcases List.isPrefixOf_iff_prefix.1 hpre with ⟨rest, hrest⟩
          refine ⟨[], rest, hrest.symm, ?_⟩
          rw [← hrest, List.drop_left, List.nil_append]
      · rcases ih with hsame | ⟨a, b, hs, hsub⟩
        · exact Or.inl (by rw [hsame])
        · exact Or.inr ⟨c :: a, b, by rw [hs, List.cons_append], by rw [hsub, List.cons_append]⟩

/-- Taking an occurrence away changes the string, unless there is none. -/
theorem sub_eq_self_iff {pat : Str} (hpat : pat ≠ []) (x : Str) :
    sub x pat [] = x ↔ ¬ pat <:+: x := by
  induction x with
  | nil => simp [sub, hpat]
  | cons c s ih =>
      by_cases hpre : pat <+: c :: s
      · have hlong : 0 < pat.length := List.length_pos_iff.2 hpat
        have hinfix : pat <:+: c :: s := hpre.isInfix
        have hsub : sub (c :: s) pat [] = (c :: s).drop pat.length := by
          simp [sub, List.isPrefixOf_iff_prefix.2 hpre]
        constructor
        · intro hsame
          have hlen := congrArg List.length hsame
          simp only [hsub, List.length_drop, List.length_cons] at hlen
          omega
        · intro hnot
          exact absurd hinfix hnot
      · have hsub : sub (c :: s) pat [] = c :: sub s pat [] := by
          simp [sub, hpre]
        simp [hsub, List.infix_cons_iff, hpre, ih]

/-- Without a replacement, `sub` takes one occurrence away, if there is any. -/
theorem sub_cases (pat : Str) (x : Str) :
    sub x pat [] = x ∨ (sub x pat []).length + pat.length = x.length := by
  rcases sub_parts pat [] x with hsame | ⟨a, b, hx, hsub⟩
  · exact Or.inl hsame
  · right
    have hlen := congrArg List.length hx
    simp only [hsub, List.length_append, List.nil_append] at hlen ⊢
    omega

end Str

end Ruby
