import Mathlib.Data.List.Basic

/-!
# Shell — simple commands in the POSIX shell grammar

`Shell.scan` reads the words of a command text: it knows the three kinds of quoting and takes the
quoting characters away.  `Shell.simpleCommand` is the word list of a text of one line that is exactly
one simple command made of such words.  Every other text gives `none`: one with an expansion of any
kind (parameter, command, arithmetic, pathname, tilde), an operator, a second line, a comment, an
assignment, a reserved word, or a quote that is not closed.

* `Literal` and `QuotedLiteral` describe the texts the shell reads as they stand, outside and inside
  double quotes (`scan_literal`, `scan_quoted`);
* `counted_of_scan` counts quoting characters: a reading that loses no backslash and no single quote
  has no double quote left.  It gives the converses `literal_of_scan` and `quotedLiteral_of_scan`;
* `simpleCommand_line_iff` puts them together for a whole command line.
-/

namespace Posix
namespace Shell

abbrev Word := List Char

inductive Quote
  | bare
  | single
  | double
  deriving DecidableEq, Repr

def isBlank (c : Char) : Bool :=
  c == ' ' || c == '\t'

/-- The characters of the operators, and the newline that ends a command. -/
def isOperator (c : Char) : Bool :=
  c ∈ ['|', '&', ';', '<', '>', '(', ')', '\n']

/-- The characters that make a word a pattern for pathname expansion. -/
def isPattern (c : Char) : Bool :=
  c ∈ ['*', '?', '[']

/-- Whether a dollar sign in front of this text starts an expansion.  (What `$[` is the standard leaves
open; some shells take it for arithmetic.) -/
def startsExpansion : List Char → Bool
  | [] => false
  | c :: _ => c.isAlphanum || c ∈ ['_', '(', '{', '@', '*', '#', '?', '-', '$', '!']

/-- The characters a backslash escapes inside double quotes (a newline it removes). -/
def isEscapable (c : Char) : Bool :=
  c ∈ ['$', '`', '"', '\\']

/-- The words of a text: `word` is the one being read, `none` between words. -/
def scan : Quote → Option Word → List Char → Option (List Word)
  | .bare, word, [] => some word.toList
  | .bare, word, c :: s =>
      if c = '\\' then
        match s with
        | [] => none
        | d :: s =>
            if d = '\n' then scan .bare word s
            else scan .bare (some (word.getD [] ++ [d])) s
      else if c = '\'' then scan .single (some (word.getD [])) s
      else if c = '"' then scan .double (some (word.getD [])) s
      else if isBlank c then (scan .bare none s).map (word.toList ++ ·)
      -- not one simple command, or not one without expansions
      else if isOperator c || isPattern c || c == '`' then none
      else if c = '$' ∧ startsExpansion s = true then none
      -- a comment or a tilde prefix can only start a word
      else if word = none ∧ (c = '#' ∨ c = '~') then none
      else scan .bare (some (word.getD [] ++ [c])) s
  -- a quote that is not closed
  | .single, _, [] => none
  | .single, word, c :: s =>
      if c = '\'' then scan .bare word s
      else scan .single (some (word.getD [] ++ [c])) s
  | .double, _, [] => none
  | .double, word, c :: s =>
      if c = '"' then scan .bare word s
      else if c = '`' then none
      else if c = '\\' then
        match s with
        | [] => none
        | d :: s =>
            if d = '\n' then scan .double word s
            else if isEscapable d then scan .double (some (word.getD [] ++ [d])) s
            -- between double quotes any other backslash stays
            else scan .double (some (word.getD [] ++ ['\\', d])) s
      else if c = '$' ∧ startsExpansion s = true then none
      else scan .double (some (word.getD [] ++ [c])) s

theorem scan_bare_cons {word : Option Word} {c : Char} {s : List Char} (hc : c ≠ '\\') :
    scan .bare word (c :: s) =
      if c = '\'' then scan .single (some (word.getD [])) s
      else if c = '"' then scan .double (some (word.getD [])) s
      else if isBlank c then (scan .bare none s).map (word.toList ++ ·)
      else if isOperator c || isPattern c || c == '`' then none
      else if c = '$' ∧ startsExpansion s = true then none
      else if word = none ∧ (c = '#' ∨ c = '~') then none
      else scan .bare (some (word.getD [] ++ [c])) s := by
  cases s <;> simp [scan, hc]

theorem scan_double_cons {word : Option Word} {c : Char} {s : List Char} (hc : c ≠ '\\') :
    scan .double word (c :: s) =
      if c = '"' then scan .bare word s
      else if c = '`' then none
      else if c = '$' ∧ startsExpansion s = true then none
      else scan .double (some (word.getD [] ++ [c])) s := by
  cases s <;> simp [scan, hc]

/-- A word can as well be begun in front of its first character. -/
theorem scan_none_cons {c : Char} {s : List Char} (hback : c ≠ '\\') (hblank : isBlank c = false)
    (hsharp : c ≠ '#') (htilde : c ≠ '~') :
    scan .bare none (c :: s) = scan .bare (some []) (c :: s) := by
  rw [scan_bare_cons hback, scan_bare_cons hback]
  simp [hblank, hsharp, htilde]

def reserved : List Word :=
  ["!".toList, "\x7b".toList, "\x7d".toList, "case".toList, "do".toList, "done".toList, "elif".toList,
    "else".toList, "esac".toList, "fi".toList, "for".toList, "if".toList, "in".toList,
    "then".toList, "until".toList, "while".toList]

/-- A backslash in front of a newline continues the line. -/
def joinLines : List Char → List Char
  | [] => []
  | '\\' :: '\n' :: s => joinLines s
  | '\\' :: c :: s => '\\' :: c :: joinLines s
  | c :: s => c :: joinLines s

/-- The first token of a command, as it is written. -/
def firstToken (s : List Char) : Word :=
  ((joinLines s).dropWhile isBlank).takeWhile fun c => !isBlank c && !isOperator c

def isNameChar (c : Char) : Bool :=
  c.isAlphanum || c == '_'

/-- `NAME=` at the start of a token makes it an assignment. -/
def isAssignment (token : Word) : Bool :=
  let name := token.takeWhile isNameChar
  !name.isEmpty && !(name.head?.any Char.isDigit) && (token.dropWhile isNameChar).head? == some '='

/-- The argument vector of a text that is one simple command and nothing else. -/
def simpleCommand (s : List Char) : Option (List Word) :=
  if isAssignment (firstToken s) ∨ firstToken s ∈ reserved then none
  else
    match scan .bare none s with
    | some (cmd :: args) => some (cmd :: args)
    | _ => none

/-! ## Counting the quoting characters -/

theorem count_toList (word : Option Word) (c : Char) (words : List Word) :
    (word.toList ++ words).flatten.count c = (word.getD []).count c + words.flatten.count c := by
  cases word <;> simp

theorem count_snoc (w : Word) (c d : Char) :
    (w ++ [d]).count c = w.count c + if d = c then 1 else 0 := by
  by_cases h : d = c <;> simp [h]

theorem count_cons_eq (c d : Char) (s : List Char) :
    (d :: s).count c = s.count c + if d = c then 1 else 0 := by
  by_cases h : d = c <;> simp [h]

theorem count_snoc_pair (w : Word) (c d e : Char) :
    (w ++ [d, e]).count c = w.count c + (if d = c then 1 else 0) + if e = c then 1 else 0 := by
  have hsplit : w ++ [d, e] = w ++ [d] ++ [e] := by simp
  simp only [hsplit, count_snoc]

/-- How many quoting characters the words have that are read from `s` with `word` begun. -/
structure Counted (q : Quote) (word : Option Word) (s : List Char) (words : List Word) : Prop where
  backslash : words.flatten.count '\\' ≤ (word.getD []).count '\\' + s.count '\\'
  single : words.flatten.count '\'' ≤ (word.getD []).count '\'' + s.count '\''
  /-- the closing quote is taken away -/
  closing : q = .single → words.flatten.count '\'' < (word.getD []).count '\'' + s.count '\''
  double : words.flatten.count '\\' = (word.getD []).count '\\' + s.count '\\' →
    words.flatten.count '\'' = (word.getD []).count '\'' + s.count '\'' →
    words.flatten.count '"' = (word.getD []).count '"'

theorem counted_of_scan (q : Quote) (word : Option Word) (s : List Char) :
    ∀ {words : List Word}, scan q word s = some words → Counted q word s words := by
  fun_induction scan q word s
  -- the end of the text outside quotes
  case case1 word =>
    intro words h
    cases h
    have hc := fun c => count_toList word c []
    constructor <;> simp_all
  -- a blank ends the word, so the count goes over to the words behind it
  case case7 word c s hb hs hd hblank ih =>
    intro words h
    rcases Option.map_eq_some_iff.1 h with ⟨rest, hrest, rfl⟩
    rcases ih hrest with ⟨ihb, ihs, -, ihd⟩
    simp only [Option.getD_none, List.count_nil] at ihb ihs ihd
    constructor <;> simp only [count_toList, count_cons_eq, hb, hs, if_false] <;> grind
  -- every other branch fails, or goes on with one more character counted or dropped
  all_goals
    intro words h
    first
      | cases h
      | skip
  all_goals
    rename_i ih
    rcases ih h with ⟨ihb, ihs, ihc, ihd⟩
    constructor <;> grind [isEscapable, count_snoc, count_snoc_pair, count_cons_eq]

/-- What reading takes away: quoting characters, the blanks between words, joined lines. -/
def isDropped (c : Char) : Bool :=
  c == '\\' || c == '\'' || c == '"' || isBlank c || c == '\n'

/-- Reading adds nothing, and every other character comes out as often as it goes in. -/
theorem count_of_scan (x : Char) (q : Quote) (word : Option Word) (s : List Char) :
    ∀ {words : List Word}, scan q word s = some words →
      words.flatten.count x ≤ (word.getD []).count x + s.count x ∧
        (isDropped x = false → words.flatten.count x = (word.getD []).count x + s.count x) := by
  fun_induction scan q word s
  case case1 word =>
    intro words h
    cases h
    have hc := count_toList word x []
    simp_all
  -- a blank ends the word, so the count goes over to the words behind it
  case case7 word c s hb hs hd hblank ih =>
    intro words h
    rcases Option.map_eq_some_iff.1 h with ⟨rest, hrest, rfl⟩
    have hrest' := ih hrest
    simp only [Option.getD_none, List.count_nil] at hrest'
    simp only [count_toList, count_cons_eq]
    grind [isDropped]
  all_goals
    intro words h
    first
      | cases h
      | skip
  all_goals
    rename_i ih
    have hrest := ih h
    grind [isDropped, isEscapable, count_snoc, count_snoc_pair, count_cons_eq]

/-! ## Text that is read as it stands -/

/-- The characters an unquoted word takes as they are (but for a dollar sign before a name). -/
def isPlain (c : Char) : Bool :=
  !(c == '\\' || c == '\'' || c == '"' || isBlank c || isOperator c || isPattern c || c == '`')

/-- The inner part of a word that the shell reads as it stands outside quotes. -/
def LiteralTail : List Char → Prop
  | [] => True
  | c :: s => isPlain c = true ∧ (c = '$' → startsExpansion s = false) ∧ LiteralTail s

def Literal (s : List Char) : Prop :=
  s ≠ [] ∧ s.head? ≠ some '#' ∧ s.head? ≠ some '~' ∧ LiteralTail s

/-- A text that the shell reads as it stands inside double quotes. -/
def QuotedLiteral : List Char → Prop
  | [] => True
  | c :: s =>
      c ≠ '"' ∧ c ≠ '`' ∧
      (c = '\\' → (s.head?.any fun d => d != '\n' && !isEscapable d) = true) ∧
      (c = '$' → startsExpansion s = false) ∧ QuotedLiteral s

instance decidableLiteralTail : (s : List Char) → Decidable (LiteralTail s)
  | [] => inferInstanceAs (Decidable True)
  | c :: s =>
      have := decidableLiteralTail s
      inferInstanceAs (Decidable (isPlain c = true ∧ (c = '$' → startsExpansion s = false) ∧ _))

instance (s : List Char) : Decidable (Literal s) :=
  inferInstanceAs (Decidable (s ≠ [] ∧ s.head? ≠ some '#' ∧ s.head? ≠ some '~' ∧ LiteralTail s))

instance decidableQuotedLiteral : (s : List Char) → Decidable (QuotedLiteral s)
  | [] => inferInstanceAs (Decidable True)
  | c :: s =>
      have := decidableQuotedLiteral s
      inferInstanceAs (Decidable (c ≠ '"' ∧ c ≠ '`' ∧
        (c = '\\' → (s.head?.any fun d => d != '\n' && !isEscapable d) = true) ∧
        (c = '$' → startsExpansion s = false) ∧ _))

theorem startsExpansion_append {p t : List Char} (ht : startsExpansion t = false) :
    startsExpansion (p ++ t) = startsExpansion p := by
  cases p with
  | nil => simpa [startsExpansion] using ht
  | cons c p => rfl

/-- One plain character is added to the word that is being read. -/
theorem scan_plain {word : Option Word} {c : Char} {s : List Char} (hc : isPlain c = true)
    (hdollar : c = '$' → startsExpansion s = false)
    (hstart : word = none → c ≠ '#' ∧ c ≠ '~') :
    scan .bare word (c :: s) = scan .bare (some (word.getD [] ++ [c])) s := by
  simp only [isPlain, Bool.not_eq_true', Bool.or_eq_false_iff, beq_eq_false_iff_ne] at hc
  have hexp : ¬ (c = '$' ∧ startsExpansion s = true) := by
    rintro ⟨rfl, hexp⟩
    simp [hdollar rfl] at hexp
  have hfirst : ¬ (word = none ∧ (c = '#' ∨ c = '~')) := by
    rintro ⟨hnone, hsharp | htilde⟩
    · exact (hstart hnone).1 hsharp
    · exact (hstart hnone).2 htilde
  rw [scan_bare_cons hc.1.1.1.1.1.1]
  simp [hc, hexp, hfirst]

theorem scan_literalTail {p t : List Char} (hp : LiteralTail p) (ht : startsExpansion t = false) :
    ∀ w : Word, scan .bare (some w) (p ++ t) = scan .bare (some (w ++ p)) t := by
  induction p with
  | nil =>
      intro w
      simp
  | cons c p ih =>
      intro w
      rcases hp with ⟨hc, hdollar, hp⟩
      have hstep : scan .bare (some w) (c :: (p ++ t)) = scan .bare (some (w ++ [c])) (p ++ t) :=
        scan_plain hc (fun h => (startsExpansion_append ht).trans (hdollar h)) (by simp)
      simpa [hstep] using ih hp (w ++ [c])

theorem scan_literal {p t : List Char} (hp : Literal p) (ht : startsExpansion t = false) :
    scan .bare none (p ++ t) = scan .bare (some p) t := by
  cases p with
  | nil => exact absurd rfl hp.1
  | cons c p =>
      rcases hp with ⟨-, hsharp, htilde, hc, hdollar, hp⟩
      have hstep : scan .bare none (c :: (p ++ t)) = scan .bare (some [c]) (p ++ t) :=
        scan_plain hc (fun h => (startsExpansion_append ht).trans (hdollar h))
          (fun _ => ⟨by simpa using hsharp, by simpa using htilde⟩)
      simpa [hstep] using scan_literalTail hp ht [c]

theorem scan_quoted (t : List Char) :
    ∀ {p : List Char} (w : Word), QuotedLiteral p →
      scan .double (some w) (p ++ '"' :: t) = scan .bare (some (w ++ p)) t
  | [], w, _ => by simp [scan_double_cons]
  | c :: p, w, ⟨hquote, htick, hback, hdollar, hp⟩ => by
      by_cases hc : c = '\\'
      · subst hc
        cases p with
        | nil => simp at hback
        | cons d p =>
            have hd : d ≠ '\n' ∧ isEscapable d = false := by simpa using hback
            simpa [scan, hd] using scan_quoted t (w ++ ['\\', d]) hp.2.2.2.2
      -- the closing quote starts no expansion
      · have hexp : ¬ (c = '$' ∧ startsExpansion (p ++ '"' :: t) = true) := by
          rintro ⟨hc', hexp⟩
          rw [startsExpansion_append (by simp [startsExpansion])] at hexp
          simp [hdollar hc'] at hexp
        have hstep := @scan_double_cons (some w) c (p ++ '"' :: t) hc
        simpa [hstep, hquote, htick, hexp] using scan_quoted t (w ++ [c]) hp

/-! ## Only such text is read as it stands -/

/-- Outside quotes a backslash is always taken away. -/
theorem backslash_lost {word : Option Word} {s : List Char} {words : List Word}
    (h : scan .bare word ('\\' :: s) = some words) :
    words.flatten.count '\\' < (word.getD []).count '\\' + ('\\' :: s).count '\\' := by
  cases s with
  | nil => simp [scan] at h
  | cons d s =>
      simp only [scan, if_true] at h
      split at h
      · next hd =>
          have hle := (counted_of_scan _ _ _ h).backslash
          grind [count_cons_eq]
      · have hle := (counted_of_scan _ _ _ h).backslash
        grind [count_cons_eq, count_snoc]

theorem scan_bare_cases {word : Option Word} {c : Char} {s : List Char} {words : List Word}
    (h : scan .bare word (c :: s) = some words) :
    (c = '\\' ∧ words.flatten.count '\\' < (word.getD []).count '\\' + (c :: s).count '\\') ∨
    (c = '\'' ∧ words.flatten.count '\'' < (word.getD []).count '\'' + (c :: s).count '\'') ∨
    c = '"' ∨
    (isBlank c = true ∧ ∃ rest, scan .bare none s = some rest ∧ words = word.toList ++ rest) ∨
    (isPlain c = true ∧ (c = '$' → startsExpansion s = false) ∧
      (word = none → c ≠ '#' ∧ c ≠ '~') ∧
      scan .bare (some (word.getD [] ++ [c])) s = some words) := by
  by_cases hc : c = '\\'
  · subst hc
    exact Or.inl ⟨rfl, backslash_lost h⟩
  · rw [scan_bare_cons hc] at h
    split at h
    · next hc' =>
        -- the closing single quote is lost as well
        have hlt := (counted_of_scan _ _ _ h).closing rfl
        right; left
        refine ⟨hc', ?_⟩
        grind [count_cons_eq]
    · next hsq =>
        split at h
        · next hdq => simp [hdq]
        · next hdq =>
            split at h
            · next hblank =>
                rcases Option.map_eq_some_iff.1 h with ⟨rest, hrest, rfl⟩
                simp [hblank, hrest]
            · next hblank =>
                split at h
                · cases h
                · next hspecial =>
                    split at h
                    · cases h
                    · next hexp =>
                        split at h
                        · cases h
                        · next hstart =>
                            right; right; right; right
                            refine ⟨?_, ?_, ?_, h⟩
                            · simpa [isPlain, hc, hsq, hdq, hblank] using hspecial
                            · intro hc'
                              simpa [hc'] using hexp
                            · intro hnone
                              simpa [hnone] using hstart

theorem scan_begun (q : Quote) (word : Option Word) (s : List Char) :
    ∀ {w : Word} {words : List Word}, word = some w → scan q word s = some words →
      ∃ x rest, words = (w ++ x) :: rest := by
  fun_induction scan q word s
  case case1 =>
    intro w words hw h
    cases h
    exact ⟨[], [], by simp [hw]⟩
  case case7 ih =>
    intro w words hw h
    rcases Option.map_eq_some_iff.1 h with ⟨rest, _, rfl⟩
    exact ⟨[], rest, by simp [hw]⟩
  all_goals
    intro w words hw h
    subst hw
    grind

/-- The first word that is read does not start with a blank, unless a quoting character is lost. -/
theorem first_not_blank {t : List Char} {words : List Word} :
    ∀ {p : List Char}, (∃ c ∈ p, isBlank c = false) → '"' ∉ p →
      words.flatten.count '\\' = p.count '\\' + t.count '\\' →
      words.flatten.count '\'' = p.count '\'' + t.count '\'' →
      scan .bare none (p ++ t) = some words →
      ∃ c x rest, words = (c :: x) :: rest ∧ isBlank c = false := by
  intro p
  induction p with
  | nil =>
      intro hblank
      simp at hblank
  | cons c p ih =>
      intro hblank hquote hback hsingle h
      rw [List.cons_append] at h
      rcases scan_bare_cases h with ⟨_, hlost⟩ | ⟨_, hlost⟩ | hdq | ⟨hb, rest, hrest, hwords⟩ |
        ⟨hplain, _, _, hnext⟩
      · rw [hback, ← List.cons_append, List.count_append] at hlost
        simp at hlost
      · rw [hsingle, ← List.cons_append, List.count_append] at hlost
        simp at hlost
      · exact absurd (by simp [hdq]) hquote
      -- a leading blank is passed over
      · have hwords' : words = rest := by simpa using hwords
        subst hwords'
        have hne : c ≠ '\\' ∧ c ≠ '\'' := by
          constructor
          · rintro rfl
            simp [isBlank] at hb
          · rintro rfl
            simp [isBlank] at hb
        refine ih ?_ (fun hmem => hquote (by simp [hmem])) ?_ ?_ hrest
        · simpa [hb] using hblank
        · simpa [count_cons_eq, hne] using hback
        · simpa [count_cons_eq, hne] using hsingle
      -- the word has begun with `c`, which is no blank
      · rcases scan_begun _ _ _ rfl hnext with ⟨x, rest, hwords⟩
        refine ⟨c, x, rest, by simpa using hwords, ?_⟩
        simp only [isPlain, Bool.not_eq_true', Bool.or_eq_false_iff] at hplain
        exact hplain.1.1.1.2

section Lossless

variable {t : List Char} {words : List Word} (ht : startsExpansion t = false)
  (hback : words.flatten.count '\\' = t.count '\\')
  (hsingle : words.flatten.count '\'' = t.count '\'')

include ht hback hsingle

/-- If a word comes out of its unquoted text unchanged, and no quoting character is lost behind it,
the text has nothing the shell gives a meaning to. -/
theorem literalTail_of_scan :
    ∀ {p w : List Char}, '"' ∉ p → scan .bare (some w) (p ++ t) = some ((w ++ p) :: words) →
      LiteralTail p := by
  intro p
  induction p with
  | nil =>
      intro w _ _
      trivial
  | cons c p ih =>
      intro w hquote h
      have htotal : ∀ x : Char, ((w ++ c :: p) :: words).flatten.count x =
          w.count x + ((c :: p).count x + words.flatten.count x) := by
        intro x
        simp only [List.flatten_cons, List.count_append, Nat.add_assoc]
      have htext : ∀ x : Char, (c :: (p ++ t)).count x = (c :: p).count x + t.count x := by
        intro x
        simp only [← List.cons_append, List.count_append]
      rw [List.cons_append] at h
      rcases scan_bare_cases h with ⟨_, hlost⟩ | ⟨_, hlost⟩ | hdq | ⟨_, rest, _, hrest⟩ |
        ⟨hplain, hdollar, _, hnext⟩
      · rw [htotal, htext, hback] at hlost
        exact absurd hlost (Nat.lt_irrefl _)
      · rw [htotal, htext, hsingle] at hlost
        exact absurd hlost (Nat.lt_irrefl _)
      · exact absurd (by simp [hdq]) hquote
      -- a blank would have ended the word too early
      · have hlen := congrArg List.length (List.cons.inj hrest).1
        simp at hlen
      · refine ⟨hplain, ?_, ?_⟩
        · intro hc
          rw [← startsExpansion_append ht]
          exact hdollar hc
        · exact ih (w := w ++ [c]) (fun hmem => hquote (by simp [hmem])) (by simpa using hnext)

theorem literal_of_scan {p : List Char} (hblank : ∃ c ∈ p, isBlank c = false) (hquote : '"' ∉ p)
    (h : scan .bare none (p ++ t) = some (p :: words)) : Literal p := by
  have hne : p ≠ [] := by
    rintro rfl
    simp at hblank
  have htotal : ∀ x : Char, (p :: words).flatten.count x = p.count x + words.flatten.count x := by
    intro x
    simp only [List.flatten_cons, List.count_append]
  have hbackslash : (p :: words).flatten.count '\\' = p.count '\\' + t.count '\\' := by
    rw [htotal, hback]
  have hsq : (p :: words).flatten.count '\'' = p.count '\'' + t.count '\'' := by
    rw [htotal, hsingle]
  rcases first_not_blank hblank hquote hbackslash hsq h with ⟨c, x, rest, hwords, hfirst⟩
  have hp : p = c :: x := (List.cons.inj hwords).1
  subst hp
  rw [List.cons_append] at h
  rcases scan_bare_cases h with ⟨_, hlost⟩ | ⟨_, hlost⟩ | hdq | ⟨hb, _⟩ |
    ⟨hplain, hdollar, hstart, hnext⟩
  · rw [hbackslash, ← List.cons_append, List.count_append] at hlost
    simp at hlost
  · rw [hsq, ← List.cons_append, List.count_append] at hlost
    simp at hlost
  · exact absurd (by simp [hdq]) hquote
  · simp [hfirst] at hb
  · refine ⟨hne, by simpa using (hstart rfl).1, by simpa using (hstart rfl).2, hplain, ?_, ?_⟩
    · intro hc
      rw [← startsExpansion_append ht]
      exact hdollar hc
    · exact literalTail_of_scan ht hback hsingle (w := [c]) (fun hmem => hquote (by simp [hmem]))
        (by simpa using hnext)

end Lossless

theorem scan_double_cases {w : Word} {c : Char} {s : List Char} {words : List Word}
    (h : scan .double (some w) (c :: s) = some words) :
    c = '"' ∨
    (c = '\\' ∧ words.flatten.count '\\' < w.count '\\' + (c :: s).count '\\') ∨
    (c = '\\' ∧ ∃ d rest, s = d :: rest ∧ d ≠ '\n' ∧ isEscapable d = false ∧
      scan .double (some (w ++ [c, d])) rest = some words) ∨
    (c ≠ '\\' ∧ c ≠ '`' ∧ (c = '$' → startsExpansion s = false) ∧
      scan .double (some (w ++ [c])) s = some words) := by
  by_cases hc : c = '\\'
  · subst hc
    right
    cases s with
    | nil => simp [scan] at h
    | cons d s =>
        rw [scan.eq_8] at h
        simp only [Char.reduceEq, if_false, if_true, Option.getD_some] at h
        split at h
        · next hd =>
            -- the backslash is dropped: from here on there is one less
            have hle := (counted_of_scan _ _ _ h).backslash
            left
            exact ⟨rfl, by grind [count_cons_eq]⟩
        · next hd =>
            split at h
            · have hle := (counted_of_scan _ _ _ h).backslash
              left
              exact ⟨rfl, by grind [count_cons_eq, count_snoc]⟩
            · next hesc =>
                right; left
                exact ⟨rfl, d, s, rfl, hd, by simpa using hesc, h⟩
  · rw [scan_double_cons hc] at h
    split at h
    · next hdq => exact Or.inl hdq
    · split at h
      · cases h
      · next htick =>
          split at h
          · cases h
          · next hexp =>
              right; right; right
              exact ⟨hc, htick, fun hc' => by simpa [hc'] using hexp, h⟩

/-- If a text comes out of double quotes unchanged, and no backslash is lost behind it, it has nothing
the shell gives a meaning to there. -/
theorem quotedLiteral_of_scan (t : List Char) {words : List Word} :
    ∀ {p : List Char} (w : Word), '"' ∉ p →
      words.flatten.count '\\' = w.count '\\' + (p.count '\\' + t.count '\\') →
      scan .double (some w) (p ++ '"' :: t) = some words → QuotedLiteral p
  | [], _, _, _, _ => trivial
  | c :: p, w, hquote, hback, h => by
      have hp : '"' ∉ p := fun hmem => hquote (by simp [hmem])
      have htext : (c :: (p ++ '"' :: t)).count '\\' = (c :: p).count '\\' + t.count '\\' := by
        simp only [← List.cons_append, List.count_append]
        grind [count_cons_eq]
      rw [List.cons_append] at h
      rcases scan_double_cases h with hdq | ⟨_, hlost⟩ | ⟨hc, d, rest, hrest, hd, hesc, hnext⟩ |
        ⟨hc, htick, hdollar, hnext⟩
      · exact absurd (by simp [hdq]) hquote
      · rw [hback, htext] at hlost
        exact absurd hlost (Nat.lt_irrefl _)
      · subst hc
        have hplain : d ≠ '$' ∧ d ≠ '`' ∧ d ≠ '"' ∧ d ≠ '\\' := by
          simpa [isEscapable] using hesc
        cases p with
        -- the backslash would take the closing quote with it
        | nil =>
            simp only [List.nil_append, List.cons.injEq] at hrest
            exact absurd hrest.1.symm hplain.2.2.1
        | cons d' p =>
            simp only [List.cons_append, List.cons.injEq] at hrest
            rcases hrest with ⟨rfl, rfl⟩
            have hlast : QuotedLiteral p :=
              quotedLiteral_of_scan t (w ++ ['\\', d']) (fun hmem => hp (by simp [hmem]))
                (by grind [count_cons_eq, count_snoc_pair]) hnext
            simp [QuotedLiteral, hd, hesc, hplain, hlast]
      · refine ⟨fun hdq => hquote (by simp [hdq]), htick, fun hc' => absurd hc' hc, ?_, ?_⟩
        · intro hc'
          have hquote' : startsExpansion ('"' :: t) = false := by simp [startsExpansion]
          rw [← startsExpansion_append hquote']
          exact hdollar hc'
        · refine quotedLiteral_of_scan t (w ++ [c]) hp ?_ hnext
          grind [count_cons_eq, count_snoc]

/-! ## Command lines -/

/-- A word of a command line as a program writes it: as it is, or between double quotes. -/
inductive Written
  | bare (word : Word)
  | quoted (word : Word)
  deriving DecidableEq, Repr

namespace Written

def word : Written → Word
  | .bare w => w
  | .quoted w => w

def text : Written → List Char
  | .bare w => w
  | .quoted w => '"' :: (w ++ ['"'])

@[simp] theorem word_bare (w : Word) : (bare w).word = w := rfl
@[simp] theorem word_quoted (w : Word) : (quoted w).word = w := rfl
@[simp] theorem text_bare (w : Word) : (bare w).text = w := rfl
@[simp] theorem text_quoted (w : Word) : (quoted w).text = '"' :: (w ++ ['"']) := rfl

/-- The shell reads back the word that was written. -/
def Reads : Written → Prop
  | .bare w => Literal w
  | .quoted w => QuotedLiteral w

/-- An unquoted word has something other than blanks. -/
def Visible : Written → Prop
  | .bare w => ∃ c ∈ w, isBlank c = false
  | .quoted _ => True

instance (w : Written) : Decidable w.Reads := by
  cases w <;> unfold Reads <;> infer_instance

instance decidableVisible : (w : Written) → Decidable w.Visible
  | .bare w => List.decidableBEx (fun c => isBlank c = false) w
  | .quoted _ => inferInstanceAs (Decidable True)

end Written

/-- Words behind the first one of a line, each with a space in front. -/
def after (ws : List Written) : List Char :=
  ws.flatMap fun w => ' ' :: w.text

@[simp] theorem after_nil : after [] = [] := rfl

@[simp] theorem after_cons (w : Written) (ws : List Written) :
    after (w :: ws) = ' ' :: (w.text ++ after ws) := rfl

theorem after_append (ws ws' : List Written) : after (ws ++ ws') = after ws ++ after ws' := by
  simp [after]

/-- Words joined with spaces. -/
theorem intercalate_text (front : List Char) (ws : List Written) :
    [' '].intercalate (front :: ws.map Written.text) = front ++ after ws := by
  induction ws generalizing front with
  | nil => simp
  | cons w ws ih =>
      have hrest := ih w.text
      simp only [List.map_cons, after_cons, List.intercalate] at hrest ⊢
      simp [hrest]

theorem startsExpansion_after (ws : List Written) : startsExpansion (after ws) = false := by
  cases ws <;> simp [startsExpansion]

theorem count_text {c : Char} (hquote : c ≠ '"') (w : Written) : w.text.count c = w.word.count c := by
  cases w with
  | bare w => rfl
  | quoted w => simp [Ne.symm hquote]

theorem count_after {c : Char} (hquote : c ≠ '"') (hspace : c ≠ ' ') (ws : List Written) :
    (after ws).count c = (ws.map Written.word).flatten.count c := by
  induction ws with
  | nil => rfl
  | cons w ws ih =>
      simp only [after_cons, List.map_cons, List.flatten_cons, List.count_append]
      rw [List.count_cons_of_ne (Ne.symm hspace), List.count_append, count_text hquote, ih]

/-- A word at the start of the text that is left is read back exactly if its text allows it. -/
theorem scan_word_iff {w : Written} (hw : w.Visible) (ws : List Written) :
    scan .bare none (w.text ++ after ws) = some (w.word :: ws.map Written.word) ↔
      w.Reads ∧
        scan .bare (some w.word) (after ws) = some (w.word :: ws.map Written.word) := by
  have ht := startsExpansion_after ws
  have hback := count_after (c := '\\') (by decide) (by decide) ws
  have hsingle := count_after (c := '\'') (by decide) (by decide) ws
  constructor
  · intro h
    -- nothing is lost, so no double quote can be left in the word
    have hquote : '"' ∉ w.word := by
      have hdouble := (counted_of_scan _ _ _ h).double
        (by simp [hback, count_text]) (by simp [hsingle, count_text])
      simp only [List.flatten_cons, List.count_append, Option.getD_none, List.count_nil,
        Nat.add_eq_zero_iff, List.count_eq_zero] at hdouble
      exact hdouble.1
    cases w with
    | bare p =>
        have hp : Literal p := literal_of_scan ht hback.symm hsingle.symm hw hquote h
        exact ⟨hp, (scan_literal hp ht).symm.trans h⟩
    | quoted p =>
        have hopen : scan .double (some []) (p ++ '"' :: after ws) =
            some (p :: ws.map Written.word) := by
          simpa [scan_bare_cons] using h
        have hp : QuotedLiteral p :=
          quotedLiteral_of_scan (after ws) [] hquote (by simp [hback]) hopen
        exact ⟨hp, (scan_quoted _ _ hp).symm.trans hopen⟩
  · rintro ⟨hp, h⟩
    cases w with
    | bare p => exact (scan_literal hp ht).trans h
    | quoted p =>
        have hopen : scan .bare none ('"' :: (p ++ '"' :: after ws)) =
            scan .double (some []) (p ++ '"' :: after ws) := by
          simp [scan_bare_cons]
        rw [scan_quoted _ _ hp] at hopen
        simpa [hopen] using h

theorem scan_line_iff {w : Written} {ws : List Written} (hvisible : ∀ v ∈ w :: ws, v.Visible) :
    scan .bare none (w.text ++ after ws) = some (w.word :: ws.map Written.word) ↔
      ∀ v ∈ w :: ws, v.Reads := by
  induction ws generalizing w with
  | nil =>
      rw [scan_word_iff (hvisible w (by simp))]
      simp [scan]
  | cons v ws ih =>
      have hrest := ih (w := v) (fun u hu => hvisible u (by simp [hu]))
      have hnext : scan .bare (some w.word) (after (v :: ws)) =
          (scan .bare none (v.text ++ after ws)).map ([w.word] ++ ·) := by
        simp [scan_bare_cons, isBlank]
      rw [scan_word_iff (hvisible w (by simp)), hnext, List.forall_mem_cons, ← hrest]
      simp

theorem joinLines_literalTail {p t : List Char} (hp : LiteralTail p) :
    joinLines (p ++ t) = p ++ joinLines t := by
  induction p with
  | nil => rfl
  | cons c p ih =>
      have hc : c ≠ '\\' := by
        rintro rfl
        simp [LiteralTail, isPlain] at hp
      simp only [List.cons_append]
      rw [joinLines.eq_4 _ _ (by simp [hc]) (by simp [hc]), ih hp.2.2]

theorem isPlain_of_mem {p : List Char} (hp : LiteralTail p) {c : Char} (hc : c ∈ p) :
    isPlain c = true := by
  induction p with
  | nil => simp at hc
  | cons d p ih =>
      rcases List.mem_cons.1 hc with rfl | hrest
      · exact hp.1
      · exact ih hp.2.2 hrest

/-- A plain word is the first token of its line. -/
theorem firstToken_line {p : List Char} (hp : Literal p) (ws : List Written) :
    firstToken (p ++ after ws) = p := by
  have hplain : ∀ c ∈ p, isBlank c = false ∧ isOperator c = false := by
    intro c hc
    have hplain := isPlain_of_mem hp.2.2.2 hc
    simp only [isPlain, Bool.not_eq_true', Bool.or_eq_false_iff] at hplain
    exact ⟨hplain.1.1.1.2, hplain.1.1.2⟩
  have hblanks : (p ++ joinLines (after ws)).dropWhile isBlank = p ++ joinLines (after ws) := by
    cases p with
    | nil => exact absurd rfl hp.1
    | cons c p => simp [(hplain c (by simp)).1]
  have hend : (joinLines (after ws)).takeWhile (fun c => !isBlank c && !isOperator c) = [] := by
    cases ws with
    | nil => rfl
    | cons w ws =>
        rw [after_cons, joinLines.eq_4 _ _ (by simp) (by simp)]
        simp [isBlank]
  rw [firstToken, joinLines_literalTail hp.2.2.2, hblanks, List.takeWhile_append_of_pos, hend,
    List.append_nil]
  intro c hc
  simp [hplain c hc]

/-- When a command line is read back word for word. -/
theorem simpleCommand_line_iff {cmd : Word} {ws : List Written}
    (hvisible : ∀ v ∈ Written.bare cmd :: ws, v.Visible) :
    simpleCommand (cmd ++ after ws) = some (cmd :: ws.map Written.word) ↔
      (isAssignment cmd = false ∧ cmd ∉ reserved) ∧ ∀ v ∈ Written.bare cmd :: ws, v.Reads := by
  have hline := scan_line_iff hvisible
  simp only [Written.text_bare, Written.word_bare] at hline
  constructor
  · intro h
    unfold simpleCommand at h
    split at h
    · cases h
    · next hfirst =>
        have hscan : scan .bare none (cmd ++ after ws) = some (cmd :: ws.map Written.word) := by
          cases hs : scan .bare none (cmd ++ after ws) with
          | none => simp [hs] at h
          | some words =>
              cases words with
              | nil => simp [hs] at h
              | cons _ _ => simpa [hs] using h
        have hreads := hline.1 hscan
        have hcmd : Literal cmd := hreads (.bare cmd) (by simp)
        rw [firstToken_line hcmd] at hfirst
        exact ⟨by simpa using hfirst, hreads⟩
  · rintro ⟨⟨hassign, hreserved⟩, hreads⟩
    have hcmd : Literal cmd := hreads (.bare cmd) (by simp)
    simp [simpleCommand, firstToken_line hcmd, hassign, hreserved, hline.2 hreads]

/-! ## Texts in one another -/

/-- What the shell reads as it stands inside double quotes can be put together, unless a dollar sign
gets in front of a name. -/
theorem QuotedLiteral.append {p t : List Char} (hp : QuotedLiteral p) (ht : QuotedLiteral t)
    (hjoin : p.getLast? = some '$' → startsExpansion t = false) : QuotedLiteral (p ++ t) := by
  induction p with
  | nil => exact ht
  | cons c p ih =>
      rcases hp with ⟨hquote, htick, hback, hdollar, hp⟩
      cases p with
      | nil =>
          -- a backslash in front of the closing quote does not stand for itself
          have hc : c ≠ '\\' := by
            rintro rfl
            simp at hback
          refine ⟨hquote, htick, fun h => absurd h hc, ?_, ht⟩
          rintro rfl
          exact hjoin rfl
      | cons d p =>
          refine ⟨hquote, htick, hback, hdollar, ih hp ?_⟩
          intro hlast
          exact hjoin (by simpa [List.getLast?_cons_cons] using hlast)

theorem QuotedLiteral.of_append {p t : List Char} (h : QuotedLiteral (p ++ t)) : QuotedLiteral t := by
  induction p with
  | nil => exact h
  | cons c p ih => exact ih h.2.2.2.2

/-- Only the beginning of what comes behind a dollar sign counts. -/
theorem startsExpansion_of_head? {s t : List Char} (h : s.head? = t.head?) :
    startsExpansion s = startsExpansion t := by
  cases s <;> cases t <;> simp_all [startsExpansion]

/-! ## Execution -/

variable {α σ : Type}

/-- What becomes of a command text when the shell executes the simple commands it reads with `exec`;
`other` is what becomes of any other text. -/
def perform (exec : List Word → σ → α × σ) (other : List Char → σ → α × σ) (text : List Char) (s : σ) :
    α × σ :=
  match simpleCommand text with
  | some argv => exec argv s
  | none => other text s

theorem perform_of_read {exec : List Word → σ → α × σ} {other : List Char → σ → α × σ}
    {text : List Char} {argv : List Word} (h : simpleCommand text = some argv) (s : σ) :
    perform exec other text s = exec argv s := by
  rw [perform, h]

end Shell
end Posix
