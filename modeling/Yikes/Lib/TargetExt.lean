import Yikes.Lib.State

/-!
# TargetExt — what the extension pattern matches

`subpath_as_target_ext` replaces every match of `/\.[^\.\/\\]*$/`.  A match takes a dot and the text
behind it up to the last line end in front of the next dot, slash or backslash (`lineRun`).

`stems` is the text between the matches.  The rewritten path is the stems with `.mp4` between them,
and rewriting it again does not change the stems (`stems_subpathAsTargetExt`), so two paths are
rewritten to one exactly if their stems agree (`subpathAsTargetExt_inj`).
-/

namespace Yikes
namespace EncodingItem

open Ruby

/-! ## One match -/

def isSpecial (c : Char) : Bool :=
  c == '.' || c == '/' || c == '\\'

/-- The text up to the last line end that no special character is in front of, and what follows. -/
def lineRun : Str → Option (Str × Str)
  | [] => some ([], [])
  | c :: s =>
      if isSpecial c then none
      else
        match lineRun s with
        | some (m, rest) => some (c :: m, rest)
        | none => if c = '\n' then some ([], c :: s) else none

/-- The longest run that ends at a line end comes first. -/
theorem head?_runs (s : Str) :
    ((Regex.runs (fun c => c != '.' && c != '/' && c != '\\') s).filter
      fun a => Regex.atLineEnd a.rest).head? =
      (lineRun s).map fun r => { text := r.1, rest := r.2 } := by
  induction s with
  | nil => rfl
  | cons c s ih =>
      -- no run goes on behind a special character
      by_cases hc : isSpecial c = true
      · have hnl : c ≠ '\n' := by
          rintro rfl
          simp [isSpecial] at hc
        have hcls : (c != '.' && c != '/' && c != '\\') = false := by
          grind [isSpecial]
        simp [Regex.runs, lineRun, hc, hcls, Regex.atLineEnd, hnl]
      · have hcls : (c != '.' && c != '/' && c != '\\') = true := by
          grind [isSpecial]
        simp only [Regex.runs, hcls, if_true, List.filter_append, List.filter_map,
          List.head?_append, List.head?_map, lineRun, hc]
        have hsame : ((fun a : Regex.Attempt => Regex.atLineEnd a.rest) ∘
            fun a : Regex.Attempt => { a with text := c :: a.text }) =
            fun a => Regex.atLineEnd a.rest := rfl
        rw [hsame, ih]
        cases hrun : lineRun s with
        | some r => simp
        | none =>
            -- no run behind `c` ends at a line end; the empty one does if `c` is a newline
            by_cases hnl : c = '\n'
            · simp [hnl, Regex.atLineEnd]
            · simp [hnl, Regex.atLineEnd]

/-- What the extension pattern matches at a dot. -/
theorem matchAt_extension (prev : Option Char) (s : Str) :
    Regex.matchAt extension prev ('.' :: s) =
      (lineRun s).map fun r => { text := '.' :: r.1, rest := r.2 } := by
  rw [Regex.matchAt, extension, Regex.attempts_one_seq (c := '.') rfl,
    Regex.attempts_seq_lineEnd, List.head?_map, Regex.attempts, head?_runs]
  cases lineRun s <;> rfl

theorem matchAt_extension_ne {c : Char} (hc : c ≠ '.') (prev : Option Char) (s : Str) :
    Regex.matchAt extension prev (c :: s) = none := by
  simp [Regex.matchAt, extension, Regex.attempts, hc]

theorem lineRun_spec {s : Str} :
    ∀ {m rest : Str}, lineRun s = some (m, rest) →
      m ++ rest = s ∧ lineRun rest = some ([], rest) := by
  induction s with
  | nil =>
      intro m rest h
      cases h
      exact ⟨rfl, rfl⟩
  | cons c s ih =>
      intro m rest h
      have hc : isSpecial c = false := by
        cases hc : isSpecial c with
        | false => rfl
        | true => simp [lineRun, hc] at h
      cases hrun : lineRun s with
      | some r =>
          have hr : c :: r.1 = m ∧ r.2 = rest := by simpa [lineRun, hc, hrun] using h
          have htail := ih hrun
          exact ⟨by rw [← hr.1, ← hr.2, List.cons_append, htail.1], by rw [← hr.2]; exact htail.2⟩
      | none =>
          have hnl : c = '\n' ∧ [] = m ∧ c :: s = rest := by simpa [lineRun, hc, hrun] using h
          rcases hnl with ⟨rfl, rfl, rfl⟩
          exact ⟨rfl, h⟩

/-! ## The whole path -/

/-- The path as the rewriting goes through it. -/
def extTokens (s : Str) : List Regex.Token :=
  Regex.tokens extension s

/-- The text that is not matched. -/
def stems (s : Str) : List Str :=
  Regex.between (extTokens s)

theorem tokensFrom_extension (prev : Option Char) (s : Str) :
    Regex.tokensFrom extension 0 prev s = extTokens s := by
  refine Regex.tokensFrom_prev ?_ prev none s
  intro prev prev' s
  cases s with
  | nil => simp [Regex.matchAt, extension, Regex.attempts]
  | cons c s =>
      by_cases hc : c = '.'
      · rw [hc, matchAt_extension, matchAt_extension]
      · rw [matchAt_extension_ne hc, matchAt_extension_ne hc]

theorem extTokens_of_ne {c : Char} (hc : c ≠ '.') (s : Str) :
    extTokens (c :: s) = .kept c :: extTokens s := by
  rw [extTokens, Regex.tokens, Regex.tokensFrom_none (matchAt_extension_ne hc none s),
    tokensFrom_extension]

theorem extTokens_of_none {s : Str} (h : lineRun s = none) :
    extTokens ('.' :: s) = .kept '.' :: extTokens s := by
  have hmatch : Regex.matchAt extension none ('.' :: s) = none := by
    simp [matchAt_extension, h]
  rw [extTokens, Regex.tokens, Regex.tokensFrom_none hmatch, tokensFrom_extension]

theorem extTokens_of_some {s m rest : Str} (h : lineRun s = some (m, rest)) :
    extTokens ('.' :: s) = .matched { text := '.' :: m, rest := rest } :: extTokens rest := by
  have hmatch : Regex.matchAt extension none ('.' :: s) =
      some { text := '.' :: m, rest := rest } := by
    simp [matchAt_extension, h]
  rw [extTokens, Regex.tokens, Regex.tokensFrom_some hmatch (by simp), tokensFrom_extension]

theorem subpathAsTargetExt_eq (s : Str) :
    subpathAsTargetExt s = ('.' :: mp4).intercalate (stems s) :=
  Regex.flatMap_replace_const ('.' :: mp4) (extTokens s)

section Steps

variable {s m rest : Str}

theorem subpathAsTargetExt_of_ne {c : Char} (hc : c ≠ '.') (s : Str) :
    subpathAsTargetExt (c :: s) = c :: subpathAsTargetExt s := by
  have htokens := extTokens_of_ne hc s
  simp only [extTokens] at htokens
  simp [subpathAsTargetExt, Regex.gsub, htokens, Regex.Token.replace]

theorem subpathAsTargetExt_of_none (h : lineRun s = none) :
    subpathAsTargetExt ('.' :: s) = '.' :: subpathAsTargetExt s := by
  have htokens := extTokens_of_none h
  simp only [extTokens] at htokens
  simp [subpathAsTargetExt, Regex.gsub, htokens, Regex.Token.replace]

theorem subpathAsTargetExt_of_some (h : lineRun s = some (m, rest)) :
    subpathAsTargetExt ('.' :: s) = '.' :: (mp4 ++ subpathAsTargetExt rest) := by
  have htokens := extTokens_of_some h
  simp only [extTokens] at htokens
  simp [subpathAsTargetExt, Regex.gsub, htokens, Regex.Token.replace]

theorem stems_of_ne {c : Char} (hc : c ≠ '.') (s : Str) :
    stems (c :: s) = (stems s).modifyHead (c :: ·) := by
  simp [stems, extTokens_of_ne hc, Regex.between]

theorem stems_of_none (h : lineRun s = none) :
    stems ('.' :: s) = (stems s).modifyHead ('.' :: ·) := by
  simp [stems, extTokens_of_none h, Regex.between]

theorem stems_of_some (h : lineRun s = some (m, rest)) : stems ('.' :: s) = [] :: stems rest := by
  simp [stems, extTokens_of_some h, Regex.between]

end Steps

@[simp] theorem subpathAsTargetExt_nil : subpathAsTargetExt [] = [] := by
  decide

/-- The rewriting changes nothing that decides where the next match ends. -/
theorem lineRun_subpathAsTargetExt (s : Str) :
    (lineRun s = none → lineRun (subpathAsTargetExt s) = none) ∧
      (lineRun s = some ([], s) →
        lineRun (subpathAsTargetExt s) = some ([], subpathAsTargetExt s)) := by
  induction s with
  | nil => simp [lineRun]
  | cons c s ih =>
      by_cases hdot : c = '.'
      · subst hdot
        have hspecial : isSpecial '.' = true := rfl
        refine ⟨fun _ => ?_, fun h => by simp [lineRun, hspecial] at h⟩
        cases hrun : lineRun s with
        | none => simp [subpathAsTargetExt_of_none hrun, lineRun, hspecial]
        | some r => simp [subpathAsTargetExt_of_some hrun, lineRun, hspecial]
      · rw [subpathAsTargetExt_of_ne hdot]
        cases hc : isSpecial c with
        | true => simp [lineRun, hc]
        | false =>
            cases hrun : lineRun s with
            | none => simp [lineRun, hc, hrun, ih.1 hrun]
            | some r => simp [lineRun, hc, hrun]

/-- Behind a match the rewritten path goes on with a line end, as the path did. -/
theorem lineRun_mp4 {s m rest : Str} (h : lineRun s = some (m, rest)) :
    lineRun (mp4 ++ subpathAsTargetExt rest) = some (mp4, subpathAsTargetExt rest) := by
  have hmp4 : ∀ t : Str, lineRun t = some ([], t) → lineRun (mp4 ++ t) = some (mp4, t) := by
    intro t ht
    simp [mp4, lineRun, isSpecial, ht]
  exact hmp4 _ ((lineRun_subpathAsTargetExt rest).2 (lineRun_spec h).2)

theorem stems_subpathAsTargetExt : (s : Str) → stems (subpathAsTargetExt s) = stems s
  | [] => by simp
  | c :: s => by
      by_cases hdot : c = '.'
      · subst hdot
        cases hrun : lineRun s with
        | none =>
            rw [subpathAsTargetExt_of_none hrun, stems_of_none hrun,
              stems_of_none ((lineRun_subpathAsTargetExt s).1 hrun), stems_subpathAsTargetExt s]
        | some r =>
            -- the rewriting goes on behind the match, with a shorter text
            have hlt : r.2.length ≤ s.length := by
              rw [← (lineRun_spec hrun).1]
              simp
            rw [subpathAsTargetExt_of_some hrun, stems_of_some hrun, stems_of_some (lineRun_mp4 hrun),
              stems_subpathAsTargetExt r.2]
      · rw [subpathAsTargetExt_of_ne hdot, stems_of_ne hdot, stems_of_ne hdot,
          stems_subpathAsTargetExt s]
termination_by s => s.length

/-- Two paths are rewritten to one exactly if they agree outside the matches. -/
theorem subpathAsTargetExt_inj {s s' : Str} :
    subpathAsTargetExt s = subpathAsTargetExt s' ↔ stems s = stems s' := by
  constructor
  · intro h
    rw [← stems_subpathAsTargetExt s, h, stems_subpathAsTargetExt]
  · intro h
    rw [subpathAsTargetExt_eq, subpathAsTargetExt_eq, h]

end EncodingItem
end Yikes
