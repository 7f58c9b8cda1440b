import Yikes.Ruby.Glob

/-!
# Pattern — a text that is spliced into a glob pattern

A program that puts a path in front of `/**/*` means the path, but its characters are read as a
pattern.  This file says what becomes of them.

* Braces: a closed brace makes every alternative shorter than the path (`of_mem_expandBraces`), one
  that is not closed is taken as it is.
* Names: a pattern is split into its names, and joining them gives the pattern back
  (`intercalate_splitPattern`).  An open bracket or a last backslash takes the separator behind the
  path, and no entry of a directory matches such a name (`fnmatch_sep`).
* Matching: a name that a pattern matches is shorter than the pattern, or all that the pattern
  stands for, or one of at least two that match (`fnmatch_cases`).
-/

namespace Ruby
namespace Glob

/-! ## Braces -/

theorem alternatives_eq_none (depth : Nat) (pat : Str) (h : '}' ∉ pat) :
    alternatives depth pat = none := by
  fun_induction alternatives depth pat with
  | case2 rest => simp at h
  | _ => simp_all

theorem alternatives_append {tail : Str} (htail : '}' ∉ tail) (depth : Nat) (pat : Str) :
    alternatives depth (pat ++ tail) =
      (alternatives depth pat).map fun r => (r.1, r.2 ++ tail) := by
  fun_induction alternatives depth pat with
  | case1 => simpa using alternatives_eq_none _ tail htail
  | case2 rest => simp [alternatives]
  | case3 rest ih => simp [alternatives, ih, Option.map_map, Function.comp_def]
  | case4 depth c rest ih =>
      simp [alternatives, ih, Option.map_map, Function.comp_def]
  | case5 depth rest ih => simp [alternatives, ih, Option.map_map, Function.comp_def]
  | case6 depth rest ih => simp [alternatives, ih, Option.map_map, Function.comp_def]
  | case7 depth c rest h1 h2 h3 h4 h5 ih =>
      -- a backslash that ends the pattern takes the first character of the tail
      by_cases hlone : c = '\\' ∧ rest = []
      · rcases hlone with ⟨rfl, rfl⟩
        have hnone : alternatives depth ('\\' :: tail) = none :=
          alternatives_eq_none _ _ (by simpa using htail)
        simpa [alternatives] using hnone
      · have hescape :
            ∀ (d : Char) (rest' : Str), c = '\\' → rest ++ tail = d :: rest' → False := by
          intro d rest' hc hrest
          cases rest with
          | nil => exact hlone ⟨hc, rfl⟩
          | cons e rest => exact h3 e rest hc rfl
        have hunfold : alternatives depth (c :: (rest ++ tail)) =
            (alternatives depth (rest ++ tail)).map fun r =>
              (r.1.modifyHead fun s => c :: s, r.2) := by
          rw [alternatives]
          all_goals assumption
        simp [hunfold, ih, Option.map_map, Function.comp_def]

theorem splitBrace_eq_none {pat : Str} (h : '{' ∉ pat) : splitBrace pat = none := by
  fun_induction splitBrace pat with
  | case2 rest => simp at h
  | _ => simp_all

theorem splitBrace_append {tail : Str} (htail : '{' ∉ tail) (pat : Str) :
    splitBrace (pat ++ tail) = (splitBrace pat).map fun r => (r.1, r.2 ++ tail) := by
  fun_induction splitBrace pat with
  | case1 => simpa using splitBrace_eq_none htail
  | case2 rest => simp [splitBrace]
  | case3 c rest ih => simp [splitBrace, ih, Option.map_map, Function.comp_def]
  | case4 c rest h1 h2 ih =>
      -- the same backslash as in `alternatives_append`
      by_cases hlone : c = '\\' ∧ rest = []
      · rcases hlone with ⟨rfl, rfl⟩
        have hnone : splitBrace ('\\' :: tail) = none := splitBrace_eq_none (by simpa using htail)
        simpa [splitBrace] using hnone
      · have hescape :
            ∀ (d : Char) (rest' : Str), c = '\\' → rest ++ tail = d :: rest' → False := by
          intro d rest' hc hrest
          cases rest with
          | nil => exact hlone ⟨hc, rfl⟩
          | cons e rest => exact h2 e rest hc rfl
        have hunfold : splitBrace (c :: (rest ++ tail)) =
            (splitBrace (rest ++ tail)).map fun r => (c :: r.1, r.2) := by
          rw [splitBrace]
          all_goals assumption
        simp [hunfold, ih, Option.map_map, Function.comp_def]

theorem expandBraces_append {tail : Str} (hopen : '{' ∉ tail) (hclose : '}' ∉ tail) (fuel : Nat) :
    ∀ pat : Str,
      expandBraces fuel (pat ++ tail) = (expandBraces fuel pat).map fun q => q ++ tail := by
  induction fuel with
  | zero =>
      intro pat
      rfl
  | succ fuel ih =>
      intro pat
      rw [expandBraces, expandBraces, splitBrace_append hopen]
      cases hsplit : splitBrace pat with
      | none => simp
      | some r =>
          rcases r with ⟨front, rest⟩
          simp only [Option.map_some, alternatives_append hclose]
          cases halts : alternatives 0 rest with
          | none => simp
          | some r =>
              rcases r with ⟨alts, back⟩
              simp [List.map_flatMap, ← ih]

def closedBrace (pat : Str) : Bool :=
  match splitBrace pat with
  | none => false
  | some (_, rest) => (alternatives 0 rest).isSome

theorem length_of_splitBrace {pat front rest : Str} (h : splitBrace pat = some (front, rest)) :
    front.length + rest.length + 1 = pat.length := by
  fun_induction splitBrace pat generalizing front with
  | case1 => simp at h
  | case2 rest' =>
      cases h
      simp
  | case3 c rest' ih =>
      rcases Option.map_eq_some_iff.1 h with ⟨r, hr, hsome⟩
      cases hsome
      have hlen := ih hr
      simp only [List.length_cons]
      omega
  | case4 c rest' _ _ ih =>
      rcases Option.map_eq_some_iff.1 h with ⟨r, hr, hsome⟩
      cases hsome
      have hlen := ih hr
      simp only [List.length_cons]
      omega

/-- Every one of some alternatives, with what follows them, is shorter than `size`. -/
def Shorter (size : Nat) (r : List Str × Str) : Prop :=
  r.2.length < size ∧ ∀ alt ∈ r.1, alt.length + r.2.length < size

theorem Shorter.modifyHead {size more : Nat} {r : List Str × Str} {f : Str → Str}
    (hf : ∀ s, (f s).length = s.length + more) (h : Shorter size r) :
    Shorter (size + more) (r.1.modifyHead f, r.2) := by
  refine ⟨by have := h.1; simp only; omega, ?_⟩
  intro alt hmem
  cases halts : r.1 with
  | nil => simp [halts] at hmem
  | cons first alts =>
      have hall := h.2
      simp only [halts, List.modifyHead_cons, List.mem_cons] at hmem hall
      rcases hmem with rfl | hmem
      · have hlt := hall first (Or.inl rfl)
        have hlen := hf first
        simp only
        omega
      · have hlt := hall alt (Or.inr hmem)
        simp only
        omega

theorem shorter_of_alternatives {depth : Nat} {rest : Str} {r : List Str × Str}
    (h : alternatives depth rest = some r) : Shorter rest.length r := by
  fun_induction alternatives depth rest generalizing r with
  | case1 => simp at h
  | case2 rest =>
      cases h
      simp [Shorter]
  -- a comma starts an empty alternative
  | case3 rest ih =>
      rcases Option.map_eq_some_iff.1 h with ⟨r', hr, rfl⟩
      have hold := ih hr
      simp only [Shorter, List.length_cons, List.mem_cons] at hold ⊢
      refine ⟨by omega, ?_⟩
      rintro alt (rfl | hmem)
      · simp only [List.length_nil]
        omega
      · have hlt := hold.2 alt hmem
        omega
  -- every other character goes to the front of the first alternative
  | case4 depth c rest ih =>
      rcases Option.map_eq_some_iff.1 h with ⟨r', hr, rfl⟩
      have hmore : Shorter (rest.length + 2) (r'.1.modifyHead fun s => '\\' :: c :: s, r'.2) :=
        (ih hr).modifyHead (by simp)
      simpa using hmore
  | case5 depth rest ih =>
      rcases Option.map_eq_some_iff.1 h with ⟨r', hr, rfl⟩
      exact (ih hr).modifyHead (by simp)
  | case6 depth rest ih =>
      rcases Option.map_eq_some_iff.1 h with ⟨r', hr, rfl⟩
      exact (ih hr).modifyHead (by simp)
  | case7 depth c rest _ _ _ _ _ ih =>
      rcases Option.map_eq_some_iff.1 h with ⟨r', hr, rfl⟩
      exact (ih hr).modifyHead (by simp)

/-- A brace that is closed makes every pattern shorter; any other brace is taken as it is. -/
theorem of_mem_expandBraces (fuel : Nat) :
    ∀ {pat q : Str}, q ∈ expandBraces fuel pat →
      q.length < pat.length ∨ q = pat ∧ (fuel = 0 ∨ closedBrace pat = false) := by
  induction fuel with
  | zero =>
      intro pat q h
      have hq : q = pat := by simpa [expandBraces] using h
      exact Or.inr ⟨hq, Or.inl rfl⟩
  | succ fuel ih =>
      intro pat q h
      rw [expandBraces] at h
      cases hsplit : splitBrace pat with
      | none =>
          have hq : q = pat := by simpa [hsplit] using h
          exact Or.inr ⟨hq, Or.inr (by simp [closedBrace, hsplit])⟩
      | some r =>
          rcases r with ⟨front, rest⟩
          cases halts : alternatives 0 rest with
          | none =>
              have hq : q = pat := by simpa [hsplit, halts] using h
              exact Or.inr ⟨hq, Or.inr (by simp [closedBrace, hsplit, halts])⟩
          -- one alternative in place of the brace, which is expanded again
          | some r =>
              rcases r with ⟨alts, back⟩
              left
              simp only [hsplit, halts, List.mem_flatMap] at h
              rcases h with ⟨alt, halt, hq⟩
              have hfront := length_of_splitBrace hsplit
              have hlt := (shorter_of_alternatives halts).2 alt halt
              have hle : q.length ≤ (front ++ alt ++ back).length := by
                rcases ih hq with hlt' | ⟨rfl, _⟩
                · omega
                · omega
              simp only [List.length_append] at hle hlt
              omega

/-! ## Matching one name -/

/-- A name of a pattern that stands for itself only. -/
def Literal (pat : Str) : Prop :=
  hasMagic pat = false ∧ unescape pat = pat

theorem unescape_cases (pat : Str) : unescape pat = pat ∨ (unescape pat).length < pat.length := by
  fun_induction unescape pat with
  | case1 => exact Or.inl rfl
  | case2 c pat ih =>
      right
      rcases ih with heq | hlt
      · simp [heq]
      · simp only [List.length_cons]
        omega
  | case3 c pat _ ih =>
      rcases ih with heq | hlt
      · exact Or.inl (by rw [heq])
      · exact Or.inr (by simpa using hlt)

theorem bracketItems_eq {pat rest : Str} {items : List (Char × Char)}
    (h : bracketItems pat = some (items, rest)) : ∃ front, pat = front ++ ']' :: rest := by
  fun_induction bracketItems pat generalizing items with
  | case1 => simp at h
  | case2 rest' =>
      cases h
      exact ⟨[], rfl⟩
  | case3 c pat ih =>
      rcases Option.map_eq_some_iff.1 h with ⟨r, hr, hsome⟩
      cases hsome
      rcases ih hr with ⟨front, rfl⟩
      exact ⟨'\\' :: c :: front, rfl⟩
  -- a dash in front of the closing bracket is a member
  | case4 a pat _ _ =>
      cases h
      exact ⟨[a, '-'], rfl⟩
  | case5 a b pat _ _ _ ih =>
      rcases Option.map_eq_some_iff.1 h with ⟨r, hr, hsome⟩
      cases hsome
      rcases ih hr with ⟨front, rfl⟩
      exact ⟨a :: '-' :: b :: front, rfl⟩
  | case6 a pat _ _ _ _ ih =>
      rcases Option.map_eq_some_iff.1 h with ⟨r, hr, hsome⟩
      cases hsome
      rcases ih hr with ⟨front, rfl⟩
      exact ⟨a :: front, rfl⟩

theorem bracket_eq {pat rest : Str} {c : Char} {b : Bool} (h : bracket pat c = some (b, rest)) :
    ∃ front, pat = front ++ ']' :: rest := by
  unfold bracket at h
  split at h
  · rcases Option.map_eq_some_iff.1 h with ⟨r, hr, hsome⟩
    cases hsome
    rcases bracketItems_eq hr with ⟨front, rfl⟩
    exact ⟨'^' :: front, rfl⟩
  · rcases Option.map_eq_some_iff.1 h with ⟨r, hr, hsome⟩
    cases hsome
    rcases bracketItems_eq hr with ⟨front, rfl⟩
    exact ⟨'!' :: front, rfl⟩
  · rcases Option.map_eq_some_iff.1 h with ⟨r, hr, hsome⟩
    cases hsome
    exact bracketItems_eq hr

/-- A name cannot be matched by a pattern that still has a separator behind all its brackets. -/
theorem fnmatchFrom_sep {tail : Str} (htail : ']' ∉ tail) (fuel : Nat) (pat name : Str) :
    ∀ front : Str, pat = front ++ '/' :: tail → '/' ∉ name → fnmatchFrom fuel pat name = false := by
  fun_induction fnmatchFrom fuel pat name with
  | case1 => simp
  | case2 fuel name => simp
  -- a star leaves some suffix of the name to the rest of the pattern
  | case3 fuel pat name ih =>
      intro front hpat hname
      cases front with
      | nil => simp at hpat
      | cons c front =>
          simp only [List.cons_append, List.cons.injEq] at hpat
          simp only [List.any_eq_false, Bool.not_eq_true]
          intro rest hrest
          have hsuffix : rest <:+ name := by simpa using hrest
          exact ih rest front hpat.2 (fun hmem => hname (hsuffix.subset hmem))
  | case4 => simp
  | case5 fuel pat c name ih =>
      intro front hpat hname
      cases front with
      | nil => simp at hpat
      | cons c' front =>
          simp only [List.cons_append, List.cons.injEq] at hpat
          exact ih front hpat.2 (fun hmem => hname (by simp [hmem]))
  | case6 fuel pat c name rest hbracket ih =>
      intro front hpat hname
      rcases bracket_eq hbracket with ⟨set, hset⟩
      cases front with
      | nil => simp at hpat
      | cons c' front =>
          simp only [List.cons_append, List.cons.injEq] at hpat
          rw [hset] at hpat
          -- the closing bracket is not in the tail, so it stands in front of the separator
          rcases List.append_eq_append_iff.1 hpat.2 with ⟨mid, hfront, hrest⟩ | ⟨mid, hfront, hrest⟩
          · cases mid with
            | nil => simp at hrest
            | cons d mid =>
                simp only [List.cons_append, List.cons.injEq] at hrest
                exact ih mid hrest.2 (fun hmem => hname (by simp [hmem]))
          · exfalso
            have hmem : ']' ∈ '/' :: tail := by simp [hrest]
            simp [htail] at hmem
  | case7 fuel pat c name hbracket => simp
  -- the escaped character may be the separator itself
  | case8 fuel p pat c name ih =>
      intro front hpat hname
      cases front with
      | nil => simp at hpat
      | cons c' front =>
          simp only [List.cons_append, List.cons.injEq] at hpat
          cases front with
          | nil =>
              simp only [List.nil_append, List.cons.injEq] at hpat
              have hne : p ≠ c := by
                rintro rfl
                simp [hpat.2.1] at hname
              simp [hne]
          | cons d front =>
              simp only [List.cons_append, List.cons.injEq] at hpat
              simp [ih front hpat.2.2 (fun hmem => hname (by simp [hmem]))]
  | case9 fuel p pat c name _ _ _ _ ih =>
      intro front hpat hname
      cases front with
      | nil =>
          simp only [List.nil_append, List.cons.injEq] at hpat
          have hne : p ≠ c := by
            rintro rfl
            simp [hpat.1] at hname
          simp [hne]
      | cons d front =>
          simp only [List.cons_append, List.cons.injEq] at hpat
          simp [ih front hpat.2 (fun hmem => hname (by simp [hmem]))]

/-- Another name than `name`, which an entry can have whenever `name` can. -/
structure Decoy (name d : Str) : Prop where
  ne : d ≠ name
  noSep : '/' ∉ d
  notDots : ∃ c ∈ d, c ≠ '.'
  head : d.head? = some '.' → name.head? = some '.'

theorem Decoy.cons {name d : Str} {c : Char} (hc : c ≠ '/') (h : Decoy name d) :
    Decoy (c :: name) (c :: d) where
  ne := by simpa using h.ne
  noSep := by simp [hc.symm, h.noSep]
  notDots := by
    rcases h.notDots with ⟨x, hx, hne⟩
    exact ⟨x, by simp [hx], hne⟩
  head := by simp

theorem fnmatchFrom_cases (fuel : Nat) (pat name : Str) (hname : '/' ∉ name)
    (h : fnmatchFrom fuel pat name = true) :
    name.length < pat.length ∨ name = pat ∧ Literal pat ∨
      ∃ d, Decoy name d ∧ fnmatchFrom fuel pat d = true := by
  fun_induction fnmatchFrom fuel pat name with
  | case1 => simp at h
  | case2 fuel name =>
      have hnil : name = [] := by simpa using h
      exact Or.inr (Or.inl ⟨hnil, by simp [Literal, hasMagic, unescape]⟩)
  -- behind a star the name may be longer
  | case3 fuel pat name ih =>
      right
      right
      refine ⟨'x' :: name, ⟨by simp, by simpa using hname, ⟨'x', by simp⟩, by simp⟩, ?_⟩
      simp only [fnmatchFrom, List.tails_cons, List.any_cons, h, Bool.or_true]
  | case4 => simp at h
  -- a question mark takes any other character
  | case5 fuel pat c name ih =>
      right
      right
      have hname' : '/' ∉ name := fun hmem => hname (by simp [hmem])
      by_cases hc : c = 'x'
      · refine ⟨'y' :: name, ⟨by simp [hc], by simpa using hname', ⟨'y', by simp⟩, by simp⟩, ?_⟩
        simpa [fnmatchFrom] using h
      · refine ⟨'x' :: name,
          ⟨by simp [Ne.symm hc], by simpa using hname', ⟨'x', by simp⟩, by simp⟩, ?_⟩
        simpa [fnmatchFrom] using h
  -- a set is longer than the character it takes
  | case6 fuel pat c name rest hbracket ih =>
      have hname' : '/' ∉ name := fun hmem => hname (by simp [hmem])
      have hc : c ≠ '/' := fun heq => hname (by simp [heq])
      rcases bracket_eq hbracket with ⟨set, hset⟩
      have hlen : rest.length < pat.length := by
        rw [hset]
        simp only [List.length_append, List.length_cons]
        omega
      rcases ih hname' h with hlt | ⟨rfl, _⟩ | ⟨d, hdecoy, hd⟩
      · left
        simp only [List.length_cons]
        omega
      · left
        simpa using hlen
      · right
        right
        exact ⟨c :: d, hdecoy.cons hc, by simpa [fnmatchFrom, hbracket] using hd⟩
  | case7 fuel pat c name hbracket => simp at h
  -- so is an escape
  | case8 fuel p pat c name ih =>
      have hname' : '/' ∉ name := fun hmem => hname (by simp [hmem])
      have hc : c ≠ '/' := fun heq => hname (by simp [heq])
      simp only [Bool.and_eq_true, beq_iff_eq] at h
      rcases ih hname' h.2 with hlt | ⟨rfl, _⟩ | ⟨d, hdecoy, hd⟩
      · left
        simp only [List.length_cons]
        omega
      · left
        simp
      · right
        right
        exact ⟨c :: d, hdecoy.cons hc, by simpa [fnmatchFrom, h.1] using hd⟩
  -- a character that stands for itself leaves the question to the rest
  | case9 fuel p pat c name hstar hquestion hset hescape ih =>
      have hname' : '/' ∉ name := fun hmem => hname (by simp [hmem])
      have hc : c ≠ '/' := fun heq => hname (by simp [heq])
      simp only [Bool.and_eq_true, beq_iff_eq] at h
      have hescape' : ∀ (x : Char) (rest : Str), p = '\\' → pat = x :: rest → False := by
        intro x rest hp hpat
        exact hescape x rest hp hpat
      rcases ih hname' h.2 with hlt | ⟨rfl, hliteral⟩ | ⟨d, hdecoy, hd⟩
      · exact Or.inl (by simpa using hlt)
      · right
        left
        have hmagic : hasMagic (p :: name) = false := by
          rw [hasMagic]
          · simp_all [hliteral.1]
          · exact hescape'
        have hsame : unescape (p :: name) = p :: name := by
          rw [unescape]
          · rw [hliteral.2]
          · exact hescape'
        exact ⟨by rw [h.1], hmagic, hsame⟩
      · right
        right
        refine ⟨c :: d, hdecoy.cons hc, ?_⟩
        rw [fnmatchFrom]
        · simp [h.1, hd]
        all_goals simp_all

/-- A name a pattern matches is shorter than the pattern, or is all the pattern stands for, or has a
decoy that the pattern matches as well. -/
theorem fnmatch_cases {pat name : Str} (hname : '/' ∉ name) (h : fnmatch pat name = true) :
    name.length < pat.length ∨ name = pat ∧ Literal pat ∨
      ∃ d, Decoy name d ∧ fnmatch pat d = true := by
  unfold fnmatch at h
  split at h
  · simp at h
  · next hdot =>
      rcases fnmatchFrom_cases _ pat name hname h with hlt | hliteral | ⟨d, hdecoy, hd⟩
      · exact Or.inl hlt
      · exact Or.inr (Or.inl hliteral)
      · right
        right
        refine ⟨d, hdecoy, ?_⟩
        have hdot' : ¬ (d.head? = some '.' ∧ pat.head? ≠ some '.' ∧ ¬ ['\\', '.'] <+: pat) := by
          rintro ⟨hhead, hrest⟩
          exact hdot ⟨hdecoy.head hhead, hrest⟩
        simpa [fnmatch, hdot'] using hd

theorem fnmatch_sep {front tail name : Str} (htail : ']' ∉ tail) (hname : '/' ∉ name) :
    fnmatch (front ++ '/' :: tail) name = false := by
  unfold fnmatch
  split
  · rfl
  · exact fnmatchFrom_sep htail _ _ name front rfl hname

theorem hasMagic_sep (front tail : Str) : hasMagic (front ++ '/' :: '*' :: tail) = true := by
  fun_induction hasMagic front with
  | case1 => simp [hasMagic]
  | case2 d pat ih => simpa [hasMagic] using ih
  | case3 d pat hescape ih =>
      -- a backslash at the end takes the separator, and the star stays
      by_cases hlone : d = '\\' ∧ pat = []
      · simp [hlone.1, hlone.2, hasMagic]
      · rw [List.cons_append, hasMagic]
        · simp [ih]
        · intro x rest hd hrest
          cases pat with
          | nil => exact hlone ⟨hd, rfl⟩
          | cons e pat => exact hescape e pat hd rfl

/-! ## Names of a pattern -/

/-- Whether a pattern ends outside of brackets, with no backslash that waits for a character. -/
def closes : Bool → Str → Bool
  | inBracket, [] => !inBracket
  | _, ['\\'] => false
  | inBracket, '\\' :: _ :: pat => closes inBracket pat
  | _, '[' :: pat => closes true pat
  | _, ']' :: pat => closes false pat
  | inBracket, _ :: pat => closes inBracket pat

theorem splitPattern_ne_nil (inBracket : Bool) (pat : Str) : splitPattern inBracket pat ≠ [] := by
  fun_induction splitPattern inBracket pat with
  | case1 => simp
  | case5 => simp
  | _ => simpa [List.modifyHead_eq_nil_iff]

theorem modifyHead_append {α : Type} {xs ys : List α} (f : α → α) (hne : xs ≠ []) :
    (xs ++ ys).modifyHead f = xs.modifyHead f ++ ys := by
  cases xs with
  | nil => exact absurd rfl hne
  | cons x xs => rfl

theorem splitPattern_append (rest : Str) (inBracket : Bool) (pat : Str)
    (h : closes inBracket pat = true) :
    splitPattern inBracket (pat ++ '/' :: rest) =
      splitPattern inBracket pat ++ splitPattern false rest := by
  fun_induction splitPattern inBracket pat with
  -- outside of brackets the separator splits
  | case1 inBracket =>
      have hout : inBracket = false := by simpa [closes] using h
      simp [hout, splitPattern]
  | case2 inBracket c pat ih =>
      simp only [List.cons_append, splitPattern]
      rw [ih (by simpa [closes] using h), modifyHead_append _ (splitPattern_ne_nil _ _)]
  | case3 inBracket pat ih =>
      simp only [List.cons_append, splitPattern]
      rw [ih (by simpa [closes] using h), modifyHead_append _ (splitPattern_ne_nil _ _)]
  | case4 inBracket pat ih =>
      simp only [List.cons_append, splitPattern]
      rw [ih (by simpa [closes] using h), modifyHead_append _ (splitPattern_ne_nil _ _)]
  | case5 pat ih =>
      simp only [List.cons_append, splitPattern]
      rw [ih (by simpa [closes] using h)]
  | case6 inBracket c pat hescape hopen hclose hsep ih =>
      -- the pattern would end in a backslash
      have hc : c ≠ '\\' := by
        rintro rfl
        cases pat with
        | nil => simp [closes] at h
        | cons d pat => exact hescape d pat rfl rfl
      have hpat : closes inBracket pat = true := by
        rw [closes] at h
        · exact h
        all_goals simp_all
      have hunfold : splitPattern inBracket (c :: (pat ++ '/' :: rest)) =
          (splitPattern inBracket (pat ++ '/' :: rest)).modifyHead fun s => c :: s := by
        rw [splitPattern]
        all_goals simp_all
      rw [List.cons_append, hunfold, ih hpat, modifyHead_append _ (splitPattern_ne_nil _ _)]

theorem intercalate_modifyHead (sep : Str) (front : Str) {names : List Str} (hne : names ≠ []) :
    sep.intercalate (names.modifyHead fun s => front ++ s) = front ++ sep.intercalate names := by
  cases names with
  | nil => exact absurd rfl hne
  | cons name names =>
      cases names with
      | nil => simp [List.intercalate]
      | cons next names => simp [List.intercalate]

theorem intercalate_splitPattern (inBracket : Bool) (pat : Str) :
    ['/'].intercalate (splitPattern inBracket pat) = pat := by
  fun_induction splitPattern inBracket pat with
  | case1 => rfl
  | case2 inBracket c pat ih =>
      have happ := intercalate_modifyHead ['/'] ['\\', c] (splitPattern_ne_nil inBracket pat)
      simpa [ih] using happ
  | case3 inBracket pat ih =>
      have happ := intercalate_modifyHead ['/'] ['['] (splitPattern_ne_nil true pat)
      simpa [ih] using happ
  | case4 inBracket pat ih =>
      have happ := intercalate_modifyHead ['/'] [']'] (splitPattern_ne_nil false pat)
      simpa [ih] using happ
  -- the separator that was split at is put back
  | case5 pat ih =>
      cases hsplit : splitPattern false pat with
      | nil => exact absurd hsplit (splitPattern_ne_nil false pat)
      | cons name names =>
          rw [hsplit] at ih
          simp [List.intercalate_cons_cons, ih]
  | case6 inBracket c pat _ _ _ _ ih =>
      have happ := intercalate_modifyHead ['/'] [c] (splitPattern_ne_nil inBracket pat)
      simpa [ih] using happ

theorem mem_modifyHead (front : Str) {x : Str} {names : List Str} (h : x ∈ names) :
    x ∈ names.modifyHead (fun s => front ++ s) ∨
      front ++ x ∈ names.modifyHead (fun s => front ++ s) := by
  cases names with
  | nil => simp at h
  | cons name names =>
      rcases List.mem_cons.1 h with rfl | hmem
      · simp
      · simp [hmem]

/-- Where the pattern does not close, the next separator is a part of one of its names. -/
theorem splitPattern_open (inBracket : Bool) (pat : Str) (h : closes inBracket pat = false) :
    ∃ front tail, front ++ '/' :: '*' :: tail ∈ splitPattern inBracket (pat ++ "/**/*".toList) ∧
      ']' ∉ tail := by
  have hmore : ∀ (pre : Str) (names : List Str),
      (∃ front tail, front ++ '/' :: '*' :: tail ∈ names ∧ ']' ∉ tail) →
      ∃ front tail, front ++ '/' :: '*' :: tail ∈ names.modifyHead (fun s => pre ++ s) ∧
        ']' ∉ tail := by
    rintro pre names ⟨front, tail, hmem, htail⟩
    rcases mem_modifyHead pre hmem with hkeep | hmem'
    · exact ⟨front, tail, hkeep, htail⟩
    · exact ⟨pre ++ front, tail, by simpa using hmem', htail⟩
  fun_induction splitPattern inBracket pat with
  -- an open bracket takes the whole tail
  | case1 inBracket =>
      have hin : inBracket = true := by simpa [closes] using h
      subst hin
      exact ⟨[], ['*', '/', '*'], by decide, by decide⟩
  | case2 inBracket c pat ih =>
      have hpat := ih (by simpa [closes] using h)
      simpa [splitPattern] using hmore ['\\', c] _ hpat
  | case3 inBracket pat ih =>
      have hpat := ih (by simpa [closes] using h)
      simpa [splitPattern] using hmore ['['] _ hpat
  | case4 inBracket pat ih =>
      have hpat := ih (by simpa [closes] using h)
      simpa [splitPattern] using hmore [']'] _ hpat
  | case5 pat ih =>
      rcases ih (by simpa [closes] using h) with ⟨front, tail, hmem, htail⟩
      exact ⟨front, tail, by simpa [splitPattern] using hmem, htail⟩
  | case6 inBracket c pat hescape hopen hclose hsep ih =>
      by_cases hlone : c = '\\' ∧ pat = []
      -- the backslash takes the separator
      · rcases hlone with ⟨rfl, rfl⟩
        cases inBracket with
        | false => exact ⟨['\\'], ['*'], by decide, by decide⟩
        | true => exact ⟨['\\'], ['*', '/', '*'], by decide, by decide⟩
      · have hc : c ≠ '\\' := by
          rintro rfl
          cases pat with
          | nil => exact hlone ⟨rfl, rfl⟩
          | cons d pat => exact hescape d pat rfl rfl
        have hpat : closes inBracket pat = false := by
          rw [closes] at h
          · exact h
          all_goals simp_all
        have hunfold : splitPattern inBracket (c :: (pat ++ "/**/*".toList)) =
            (splitPattern inBracket (pat ++ "/**/*".toList)).modifyHead fun s => [c] ++ s := by
          rw [splitPattern]
          all_goals simp_all
        rw [List.cons_append, hunfold]
        exact hmore [c] _ (ih hpat)

theorem literal_of_modifyHead (front : Str) {names : List Str}
    (hfront : ∀ s, Literal (front ++ s) → Literal s)
    (h : ∀ name ∈ names.modifyHead (fun s => front ++ s), Literal name) :
    ∀ name ∈ names, Literal name := by
  cases names with
  | nil => simp
  | cons name names =>
      simp only [List.modifyHead_cons, List.mem_cons, forall_eq_or_imp] at h ⊢
      exact ⟨hfront name h.1, h.2⟩

theorem not_literal_modifyHead (front : Str) {names : List Str} (hne : names ≠ [])
    (hfront : ∀ s, ¬ Literal (front ++ s)) :
    ¬ ∀ name ∈ names.modifyHead (fun s => front ++ s), Literal name := by
  cases names with
  | nil => exact absurd rfl hne
  | cons name names =>
      intro h
      exact hfront name (h _ (by simp))

/-- A character that is no wildcard and no escape. -/
abbrev Ordinary (c : Char) : Prop :=
  c ≠ '*' ∧ c ≠ '?' ∧ c ≠ '[' ∧ c ≠ '\\'

theorem no_wildcards (inBracket : Bool) (pat : Str) (h : closes inBracket pat = true)
    (hliteral : ∀ name ∈ splitPattern inBracket pat, Literal name) :
    ∀ c ∈ pat, Ordinary c := by
  fun_induction splitPattern inBracket pat with
  | case1 => simp
  -- a name with a backslash is not read as it stands
  | case2 inBracket c pat ih =>
      refine absurd hliteral (not_literal_modifyHead ['\\', c] (splitPattern_ne_nil _ _) ?_)
      intro s hs
      have hsame := hs.2
      rcases unescape_cases s with heq | hlt
      · simp [unescape, heq] at hsame
      · have hlen := congrArg List.length hsame
        simp [unescape] at hlen
        omega
  | case3 inBracket pat ih =>
      refine absurd hliteral (not_literal_modifyHead ['['] (splitPattern_ne_nil _ _) ?_)
      intro s hs
      simp [Literal, hasMagic] at hs
  -- a closing bracket alone is an ordinary character
  | case4 inBracket pat ih =>
      have hrest := literal_of_modifyHead [']'] (by simp [Literal, hasMagic, unescape]) hliteral
      have hpat := ih (by simpa [closes] using h) hrest
      simpa [Ordinary] using hpat
  | case5 pat ih =>
      have hpat := ih (by simpa [closes] using h) (fun name hmem => hliteral name (by simp [hmem]))
      simpa [Ordinary] using hpat
  | case6 inBracket c pat hescape hopen hclose hsep ih =>
      have hc : c ≠ '\\' := by
        rintro rfl
        cases pat with
        | nil => simp [closes] at h
        | cons d pat => exact hescape d pat rfl rfl
      have hpat : closes inBracket pat = true := by
        rw [closes] at h
        · exact h
        all_goals simp_all
      -- what is left of the wildcards: the star and the question mark
      by_cases hmagic : c = '*' ∨ c = '?'
      · refine absurd hliteral (not_literal_modifyHead [c] (splitPattern_ne_nil _ _) ?_)
        intro s hs
        rcases hmagic with rfl | rfl
        · simp [Literal, hasMagic] at hs
        · simp [Literal, hasMagic] at hs
      · have hrest := literal_of_modifyHead [c]
          (by
            intro s hs
            have hmagic' := hs.1
            have hsame := hs.2
            rw [List.singleton_append, hasMagic] at hmagic'
            · rw [List.singleton_append, unescape] at hsame
              · exact ⟨by simp_all, by simpa using hsame⟩
              · simp [hc]
            · simp [hc]) hliteral
        have hall := ih hpat hrest
        intro x hx
        rcases List.mem_cons.1 hx with rfl | hx
        · exact ⟨fun heq => hmagic (Or.inl heq), fun heq => hmagic (Or.inr heq), hopen, hc⟩
        · exact hall x hx

end Glob
end Ruby
