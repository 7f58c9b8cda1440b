import Yikes.Ruby.Text

/-!
# Regex — backtracking regular expressions and `String#gsub`

The fragment of Ruby's regular expressions that is built from character classes, greedily repeated
classes, the line anchors `^` and `$`, one capturing group and concatenation.

* `Regex.attempts r prev s` lists every way in which `r` matches a front part of `s`, in the order
  in which a backtracking matcher tries them; the first one is *the* match at that position.
* `Regex.tokens` goes through a string from the left, from each match on behind it
  (`tokensFrom_none`, `tokensFrom_some`); `Regex.gsub` replaces the matches among the tokens, and
  `Regex.between` is the text between them.
-/

namespace Ruby

inductive Regex
  /-- one character of a class -/
  | one (cls : Char → Bool)
  /-- a class repeated greedily, `[...]*` -/
  | many (cls : Char → Bool)
  /-- `^` -/
  | lineStart
  /-- `$` -/
  | lineEnd
  | seq (r s : Regex)
  /-- `( ... )` -/
  | group (r : Regex)

namespace Regex

/-- One way to match at a position: the text taken, the text behind it, the captured group. -/
structure Attempt where
  text : Str
  rest : Str
  captured : Option Str := none
  deriving DecidableEq, Repr

/-! ## Matching at one position -/

/-- `$` holds at the end of the string and in front of every newline. -/
def atLineEnd : Str → Bool
  | [] => true
  | c :: _ => c == '\n'

/-- `^` holds at the start of the string and behind a newline that does not end it. -/
def atLineStart : Option Char → Str → Bool
  | none, _ => true
  | some c, s => c == '\n' && !s.isEmpty

/-- The character in front of the position reached by taking `text` from one behind `prev`. -/
def behind (prev : Option Char) (text : Str) : Option Char :=
  text.getLast?.or prev

/-- Greedy repetition: the longest run first, then every shorter one. -/
def runs (cls : Char → Bool) : Str → List Attempt
  | [] => [{ text := [], rest := [] }]
  | c :: s =>
      if cls c then
        (runs cls s).map (fun a => { a with text := c :: a.text }) ++ [{ text := [], rest := c :: s }]
      else
        [{ text := [], rest := c :: s }]

/-- Every match of `r` at a position whose preceding character is `prev`, in backtracking order. -/
def attempts : Regex → Option Char → Str → List Attempt
  | .one _, _, [] => []
  | .one cls, _, c :: s => if cls c then [{ text := [c], rest := s }] else []
  | .many cls, _, s => runs cls s
  | .lineStart, prev, s => if atLineStart prev s then [{ text := [], rest := s }] else []
  | .lineEnd, _, s => if atLineEnd s then [{ text := [], rest := s }] else []
  | .seq r r', prev, s =>
      (attempts r prev s).flatMap fun a =>
        (attempts r' (behind prev a.text) a.rest).map fun b =>
          { text := a.text ++ b.text, rest := b.rest, captured := b.captured.or a.captured }
  | .group r, prev, s => (attempts r prev s).map fun a => { a with captured := some a.text }

def matchAt (r : Regex) (prev : Option Char) (s : Str) : Option Attempt :=
  (attempts r prev s).head?

theorem runs_sound {cls : Char → Bool} :
    ∀ {s : Str} {a : Attempt}, a ∈ runs cls s → a.text ++ a.rest = s := by
  intro s
  induction s with
  | nil =>
      intro a ha
      simp only [runs, List.mem_singleton] at ha
      simp [ha]
  | cons c s ih =>
      intro a ha
      by_cases hc : cls c
      · simp only [runs, hc, if_true, List.mem_append, List.mem_map, List.mem_singleton] at ha
        rcases ha with ⟨b, hb, rfl⟩ | rfl
        · simp [ih hb]
        · rfl
      · simp only [runs, hc, if_false, Bool.false_eq_true, List.mem_singleton] at ha
        simp [ha]

/-- A match takes a front part of the string and leaves the rest. -/
theorem attempts_sound {r : Regex} :
    ∀ {prev : Option Char} {s : Str} {a : Attempt},
      a ∈ attempts r prev s → a.text ++ a.rest = s := by
  induction r with
  | one cls =>
      intro prev s a ha
      cases s with
      | nil => simp [attempts] at ha
      | cons c s =>
          simp only [attempts] at ha
          split at ha
          · simp only [List.mem_singleton] at ha
            simp [ha]
          · simp at ha
  | many cls =>
      intro prev s a ha
      exact runs_sound (by simpa [attempts] using ha)
  | lineStart =>
      intro prev s a ha
      simp only [attempts] at ha
      split at ha
      · simp only [List.mem_singleton] at ha
        simp [ha]
      · simp at ha
  | lineEnd =>
      intro prev s a ha
      simp only [attempts] at ha
      split at ha
      · simp only [List.mem_singleton] at ha
        simp [ha]
      · simp at ha
  | seq r r' ih ih' =>
      intro prev s a ha
      simp only [attempts, List.mem_flatMap, List.mem_map] at ha
      rcases ha with ⟨b, hb, d, hd, rfl⟩
      have hfront : b.text ++ b.rest = s := ih hb
      have hback : d.text ++ d.rest = b.rest := ih' hd
      simp only [List.append_assoc, hback, hfront]
  | group r ih =>
      intro prev s a ha
      simp only [attempts, List.mem_map] at ha
      rcases ha with ⟨b, hb, rfl⟩
      have hparts : b.text ++ b.rest = s := ih hb
      exact hparts

/-- The first run is the longest. -/
theorem head?_runs (cls : Char → Bool) (s : Str) :
    (runs cls s).head? = some { text := s.takeWhile cls, rest := s.dropWhile cls } := by
  induction s with
  | nil => rfl
  | cons c s ih =>
      by_cases hc : cls c
      · simp [runs, hc, ih]
      · simp [runs, hc]

/-- When nothing can follow a character of the class, only the longest run goes on. -/
theorem flatMap_runs {cls : Char → Bool} (s : Str) :
    ∀ {f : Attempt → List Attempt},
      (∀ (a : Attempt) (c : Char) (t : Str), a.rest = c :: t → cls c = true → f a = []) →
      (runs cls s).flatMap f = f { text := s.takeWhile cls, rest := s.dropWhile cls } := by
  induction s with
  | nil =>
      intro f _
      simp [runs]
  | cons c s ih =>
      intro f hf
      by_cases hc : cls c = true
      · have hshort : f { text := [], rest := c :: s } = [] := hf _ c s rfl hc
        have hlong := @ih (fun a => f { a with text := c :: a.text })
          (fun a d t hrest hd => hf _ d t hrest hd)
        simp only [runs, hc, if_true, List.flatMap_append, List.flatMap_map, List.flatMap_cons,
          List.flatMap_nil, hshort, List.append_nil, hlong, List.takeWhile_cons, List.dropWhile_cons]
      · simp [runs, hc]

/-- Behind a first character only the rest of the pattern has choices. -/
theorem attempts_one_seq {cls : Char → Bool} {c : Char} (hc : cls c = true) (r : Regex)
    (prev : Option Char) (s : Str) :
    attempts (.seq (.one cls) r) prev (c :: s) =
      (attempts r (some c) s).map fun a => { a with text := c :: a.text } := by
  simp [attempts, hc, behind]

/-- `$` at the end of a pattern keeps the matches that end at a line end. -/
theorem attempts_seq_lineEnd (r : Regex) (prev : Option Char) (s : Str) :
    attempts (.seq r .lineEnd) prev s = (attempts r prev s).filter fun a => atLineEnd a.rest := by
  rw [attempts]
  induction attempts r prev s with
  | nil => rfl
  | cons a as ih =>
      rw [List.flatMap_cons, ih]
      by_cases ha : atLineEnd a.rest = true
      · simp [attempts, ha]
      · simp [attempts, ha]

theorem matchAt_sound {r : Regex} {prev : Option Char} {s : Str} {a : Attempt}
    (h : matchAt r prev s = some a) : a.text ++ a.rest = s :=
  attempts_sound (List.mem_of_mem_head? h)

/-! ## Replacing every match -/

/-- A string as `gsub` goes through it: characters it keeps, and matches. -/
inductive Token
  | kept (c : Char)
  | matched (a : Attempt)
  deriving DecidableEq, Repr

/-- The tokens behind `prev`; `skip` counts the characters of the last match still to be passed. -/
def tokensFrom (r : Regex) : Nat → Option Char → Str → List Token
  | _, prev, [] => (matchAt r prev []).toList.map .matched
  | skip + 1, _, c :: s => tokensFrom r skip (some c) s
  | 0, prev, c :: s =>
      match matchAt r prev (c :: s) with
      | none => .kept c :: tokensFrom r 0 (some c) s
      | some a =>
          -- an empty match counts too, and the character behind it is kept
          if a.text = [] then .matched a :: .kept c :: tokensFrom r 0 (some c) s
          else .matched a :: tokensFrom r (a.text.length - 1) (some c) s

def tokens (r : Regex) (s : Str) : List Token :=
  tokensFrom r 0 none s

def Token.replace (rep : Attempt → Str) : Token → Str
  | .kept c => [c]
  | .matched a => rep a

/-- `String#gsub`. -/
def gsub (r : Regex) (rep : Attempt → Str) (s : Str) : Str :=
  (tokens r s).flatMap (Token.replace rep)

/-- The text between the matches. -/
def between : List Token → List Str
  | [] => [[]]
  | .kept c :: ts => (between ts).modifyHead (c :: ·)
  | .matched _ :: ts => [] :: between ts

theorem between_ne_nil (ts : List Token) : between ts ≠ [] := by
  induction ts with
  | nil => simp [between]
  | cons t ts ih =>
      cases t with
      | kept c => simpa [between, List.modifyHead_eq_nil_iff] using ih
      | matched a => simp [between]

/-- Replacing every match by one text puts it between the rest. -/
theorem flatMap_replace_const (rep : Str) (ts : List Token) :
    ts.flatMap (Token.replace fun _ => rep) = rep.intercalate (between ts) := by
  induction ts with
  | nil => simp [between]
  | cons t ts ih =>
      cases hbetween : between ts with
      | nil => exact absurd hbetween (between_ne_nil ts)
      | cons x xs =>
          rw [hbetween] at ih
          cases t with
          -- a kept character belongs to the text in front of the next match
          | kept c =>
              simp only [List.flatMap_cons, Token.replace, between, hbetween, List.modifyHead_cons, ih]
              cases xs <;> simp [List.intercalate]
          | matched a =>
              simp only [List.flatMap_cons, Token.replace, between, hbetween, ih]
              cases xs <;> simp [List.intercalate]

/-- The characters of the last match are passed over without being looked at. -/
theorem tokensFrom_skip (r : Regex) (text : Str) :
    ∀ (prev : Option Char) (s : Str),
      tokensFrom r text.length prev (text ++ s) = tokensFrom r 0 (behind prev text) s := by
  induction text with
  | nil =>
      intro prev s
      simp [behind]
  | cons c text ih =>
      intro prev s
      have hstep : tokensFrom r (c :: text).length prev (c :: text ++ s) =
          tokensFrom r text.length (some c) (text ++ s) := rfl
      rw [hstep, ih]
      cases htext : text.getLast? <;> simp [behind, List.getLast?_cons, htext]

theorem tokensFrom_none {r : Regex} {prev : Option Char} {c : Char} {s : Str}
    (h : matchAt r prev (c :: s) = none) :
    tokensFrom r 0 prev (c :: s) = .kept c :: tokensFrom r 0 (some c) s := by
  simp [tokensFrom, h]

theorem tokensFrom_some {r : Regex} {prev : Option Char} {s : Str} {a : Attempt}
    (h : matchAt r prev s = some a) (hne : a.text ≠ []) :
    tokensFrom r 0 prev s = .matched a :: tokensFrom r 0 (behind prev a.text) a.rest := by
  have hs : a.text ++ a.rest = s := matchAt_sound h
  cases htext : a.text with
  | nil => exact absurd htext hne
  | cons c text =>
      have hcons : s = c :: (text ++ a.rest) := by
        rw [← hs, htext]
        rfl
      subst hcons
      -- behind the match only its last character is looked at
      have hskip := tokensFrom_skip r text (some c) a.rest
      have hbehind : behind (some c) text = behind prev (c :: text) := by
        cases hlast : text.getLast? <;> simp [behind, List.getLast?_cons, hlast]
      rw [← hbehind, ← hskip]
      simp [tokensFrom, h, htext]

/-- A pattern that does not look at the character in front gives the same tokens behind any. -/
theorem tokensFrom_prev {r : Regex}
    (h : ∀ (prev prev' : Option Char) (s : Str), matchAt r prev s = matchAt r prev' s)
    (prev prev' : Option Char) (s : Str) : tokensFrom r 0 prev s = tokensFrom r 0 prev' s := by
  cases s with
  | nil => simp [tokensFrom, h prev prev']
  | cons c s => simp [tokensFrom, h prev prev']

end Regex

end Ruby
