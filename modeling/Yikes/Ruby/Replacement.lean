import Yikes.Ruby.Regex

/-!
# Replacement — replacement strings of `String#gsub`

In a replacement string a backslash in front of certain characters refers to the match: `\0` and `\&`
are its text, `\1` what its group captured, `` \` `` and `\'` the text in front of it and behind it,
`\\` is one backslash.  In front of any other character the backslash stays.

* `Regex.gsubStr` is `String#gsub` with a replacement string, `Regex.gsubStr!` is `String#gsub!`;
* `Regex.literal` is a pattern given as a string;
* `gsubFrom` goes on behind a position; `gsubStr_literal` goes through a string whose pattern is
  one character.
-/

namespace Ruby

namespace Regex

/-! ## References -/

/-- What `\c` stands for in a replacement, when `a` was matched with `before` in front of it. -/
def reference (before : Str) (a : Attempt) (c : Char) : Str :=
  if c = '0' ∨ c = '&' then a.text
  else if c = '1' ∨ c = '+' then a.captured.getD []
  -- a group that the pattern does not have
  else if c.isDigit then []
  else if c = '`' then before
  else if c = '\'' then a.rest
  else if c = '\\' then ['\\']
  else ['\\', c]

def expand (before : Str) (a : Attempt) : Str → Str
  | [] => []
  | [c] => [c]
  | '\\' :: c :: template => reference before a c ++ expand before a template
  | c :: template => c :: expand before a template

/-- What a match in `s` is replaced by; the string is the text in front of it, its own, and the rest. -/
def replacement (template s : Str) (a : Attempt) : Str :=
  expand (s.take (s.length - (a.text ++ a.rest).length)) a template

/-! ## The operations -/

/-- `String#gsub` with a replacement string. -/
def gsubStr (r : Regex) (template s : Str) : Str :=
  gsub r (replacement template s) s

def Token.isMatched : Token → Bool
  | .kept _ => false
  | .matched _ => true

/-- `String#gsub!` with a replacement string; without a match it gives `nil`. -/
def gsubStr! (r : Regex) (template s : Str) : Option Str :=
  if (tokens r s).any Token.isMatched then some (gsubStr r template s) else none

/-- A string as a pattern: it matches itself. -/
def literal : Str → Regex
  | [] => .many fun _ => false
  | c :: s => .seq (.one (· == c)) (literal s)

/-! ## From a position on -/

/-- The replaced text from a position on. -/
def gsubFrom (r : Regex) (rep : Attempt → Str) (prev : Option Char) (s : Str) : Str :=
  (tokensFrom r 0 prev s).flatMap (Token.replace rep)

theorem gsubStr_eq_gsubFrom (r : Regex) (template s : Str) :
    gsubStr r template s = gsubFrom r (replacement template s) none s := rfl

section Positions

variable {r : Regex} {rep : Attempt → Str} {prev : Option Char}

theorem gsubFrom_none {c : Char} {s : Str} (h : matchAt r prev (c :: s) = none) :
    gsubFrom r rep prev (c :: s) = c :: gsubFrom r rep (some c) s := by
  simp [gsubFrom, tokensFrom_none h, Token.replace]

theorem gsubFrom_some {s : Str} {a : Attempt} (h : matchAt r prev s = some a) (hne : a.text ≠ []) :
    gsubFrom r rep prev s = rep a ++ gsubFrom r rep (behind prev a.text) a.rest := by
  simp [gsubFrom, tokensFrom_some h hne, Token.replace]

/-- An empty match is replaced, and the character behind it is kept. -/
theorem gsubFrom_empty {c : Char} {s : Str} {a : Attempt} (h : matchAt r prev (c :: s) = some a)
    (hempty : a.text = []) :
    gsubFrom r rep prev (c :: s) = rep a ++ c :: gsubFrom r rep (some c) s := by
  simp [gsubFrom, tokensFrom, h, hempty, Token.replace]

theorem gsubFrom_nil :
    gsubFrom r rep prev [] = ((matchAt r prev []).map rep).getD [] := by
  cases h : matchAt r prev [] <;> simp [gsubFrom, tokensFrom, h, Token.replace]

end Positions

/-- What does not match anywhere stays as it is. -/
theorem gsubFrom_of_none {r : Regex} {rep : Attempt → Str} :
    ∀ {s : Str} {prev : Option Char},
      (∀ a b : Str, a ++ b = s → matchAt r (behind prev a) b = none) → gsubFrom r rep prev s = s := by
  intro s
  induction s with
  | nil =>
      intro prev h
      have hend : matchAt r prev [] = none := h [] [] rfl
      simp [gsubFrom_nil, hend]
  | cons c s ih =>
      intro prev h
      have hhere : matchAt r prev (c :: s) = none := h [] (c :: s) rfl
      rw [gsubFrom_none hhere]
      congr 1
      apply ih
      intro a b hs
      have hthere := h (c :: a) b (by rw [List.cons_append, hs])
      have hbehind : behind prev (c :: a) = behind (some c) a := by
        cases hlast : a.getLast? <;> simp [behind, List.getLast?_cons, hlast]
      rwa [hbehind] at hthere

/-! ## One character as the pattern -/

theorem matchAt_literal (c d : Char) (prev : Option Char) (s : Str) :
    matchAt (literal [c]) prev (d :: s) =
      if d = c then some { text := [d], rest := s } else none := by
  by_cases hd : d = c
  · have hruns : runs (fun _ => false) s = [{ text := [], rest := s }] := by
      cases s <;> rfl
    simp [matchAt, literal, attempts, hd, hruns]
  · simp [matchAt, literal, attempts, hd]

theorem gsubFrom_literal (c : Char) (rep : Attempt → Str) (prev : Option Char) (d : Char) (s : Str) :
    gsubFrom (literal [c]) rep prev (d :: s) =
      (if d = c then rep { text := [d], rest := s } else [d]) ++
        gsubFrom (literal [c]) rep (some d) s := by
  by_cases hd : d = c
  · have hmatch : matchAt (literal [c]) prev (d :: s) = some { text := [d], rest := s } := by
      rw [matchAt_literal, if_pos hd]
    rw [gsubFrom_some hmatch (by simp), if_pos hd]
    rfl
  · have hmatch : matchAt (literal [c]) prev (d :: s) = none := by
      rw [matchAt_literal, if_neg hd]
    rw [gsubFrom_none hmatch, if_neg hd]
    rfl

/-- A replacement that does not look around the match is made character by character. -/
theorem gsubStr_literal {c : Char} {template rep : Str}
    (h : ∀ before rest, expand before { text := [c], rest := rest } template = rep) (s : Str) :
    gsubStr (literal [c]) template s = s.flatMap fun d => if d = c then rep else [d] := by
  have hfrom : ∀ (whole t : Str) (prev : Option Char),
      gsubFrom (literal [c]) (replacement template whole) prev t =
        t.flatMap fun d => if d = c then rep else [d] := by
    intro whole t
    induction t with
    | nil =>
        intro prev
        simp [gsubFrom_nil, matchAt, literal, attempts]
    | cons d t ih =>
        intro prev
        rw [gsubFrom_literal, ih, List.flatMap_cons]
        by_cases hd : d = c
        · simp only [hd, if_true, replacement, h]
        · simp only [hd, if_false]
  exact hfrom s s none

end Regex

end Ruby
