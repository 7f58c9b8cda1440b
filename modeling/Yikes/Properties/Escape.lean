import Mathlib.Tactic.Ring
import Yikes.Lib.Utility
import Yikes.Posix.Shell

/-!
# Escape — what the shell makes of an escaped path

Of the ten substitutions of `escaped_path` four change nothing, and five put a backslash in front of a
comma, a hyphen, a parenthesis or a space (`escaped`).  The second one for single quotes replaces
each of them by the text behind it (`spliced`).

The shell reads an escaped path back if nothing in it needs another escape (`Undone`).  Otherwise the
text that comes out stays behind the path: once a backslash or a double quote was taken away, only
more of them can follow (`Behind`), and the word ends too early.  Only where single quotes repeat the
rest of a path can such a text meet itself again (`Entangled`).
-/

namespace Yikes

open Ruby Posix

/-! ## The text -/

/-- The characters that get a backslash. -/
def isMarked (c : Char) : Bool :=
  c ∈ [',', '-', '(', ')', ' ']

def escape (c : Char) : Str :=
  if isMarked c then ['\\', c] else [c]

def escaped (s : Str) : Str :=
  s.flatMap escape

/-- Every single quote is replaced by the text behind it. -/
def spliced : Str → Str
  | [] => []
  | c :: s => if c = '\'' then s ++ spliced s else c :: spliced s

theorem gsubStr_self {c : Char} {template : Str}
    (h : ∀ before rest, Regex.expand before { text := [c], rest := rest } template = [c]) (s : Str) :
    Regex.gsubStr (Regex.literal [c]) template s = s := by
  rw [Regex.gsubStr_literal h]
  have hsame : (fun d => if d = c then [c] else [d]) = fun d => [d] := by
    funext d
    by_cases hd : d = c
    · simp [hd]
    · simp [hd]
  rw [hsame]
  exact List.flatMap_singleton' s

/-- The replacement `\'` is the text behind the match. -/
theorem gsubStr_splice (s : Str) :
    Regex.gsubStr (Regex.literal ['\'']) ['\\', '\''] s = spliced s := by
  have hfrom : ∀ (whole t : Str) (prev : Option Char),
      Regex.gsubFrom (Regex.literal ['\'']) (Regex.replacement ['\\', '\''] whole) prev t =
        spliced t := by
    intro whole t
    induction t with
    | nil =>
        intro prev
        simp [Regex.gsubFrom_nil, Regex.matchAt, Regex.literal, Regex.attempts, spliced]
    | cons d t ih =>
        intro prev
        rw [Regex.gsubFrom_literal, ih, spliced]
        by_cases hd : d = '\''
        · simp [hd, Regex.replacement, Regex.expand, Regex.reference]
        · simp [hd]
  exact hfrom s s none

theorem gsubStr_mark {c : Char} (h : ∀ before rest,
      Regex.expand before { text := [c], rest := rest } ['\\', c] = ['\\', c]) (s : Str) :
    Regex.gsubStr (Regex.literal [c]) ['\\', c] s =
      s.flatMap fun d => if d = c then ['\\', c] else [d] :=
  Regex.gsubStr_literal h s

theorem spliced_append {a : Str} (ha : '\'' ∉ a) (b : Str) : spliced (a ++ b) = a ++ spliced b := by
  induction a with
  | nil => rfl
  | cons c a ih =>
      have hc : c ≠ '\'' := by
        rintro rfl
        simp at ha
      have hrest : '\'' ∉ a := fun hmem => ha (by simp [hmem])
      simp [spliced, hc, ih hrest]

theorem spliced_of_not_mem {s : Str} (hs : '\'' ∉ s) : spliced s = s := by
  simpa [spliced] using spliced_append hs []

/-- Replacing other characters does not come in the way. -/
theorem spliced_flatMap {f : Char → Str} (hquote : f '\'' = ['\''])
    (hf : ∀ c, c ≠ '\'' → '\'' ∉ f c) (s : Str) :
    spliced (s.flatMap f) = (spliced s).flatMap f := by
  induction s with
  | nil => rfl
  | cons c s ih =>
      by_cases hc : c = '\''
      · subst hc
        calc
          spliced (('\'' :: s).flatMap f) = spliced ('\'' :: s.flatMap f) := by
            rw [List.flatMap_cons, hquote, List.singleton_append]
          _ = s.flatMap f ++ spliced (s.flatMap f) := by simp [spliced]
          _ = (s ++ spliced s).flatMap f := by rw [ih, List.flatMap_append]
          _ = (spliced ('\'' :: s)).flatMap f := by simp [spliced]
      · have hspliced : spliced (c :: s) = c :: spliced s := by simp [spliced, hc]
        rw [hspliced, List.flatMap_cons, spliced_append (hf c hc), ih, List.flatMap_cons]

/-- The ten substitutions. -/
theorem escapedPath_eq (path : Str) : escapedPath path = escaped (spliced path) := by
  have hback := @gsubStr_self '\\' ['\\', '\\'] (by simp [Regex.expand, Regex.reference])
  have hdouble := @gsubStr_self '"' ['"'] (by simp [Regex.expand])
  have hsingle := @gsubStr_self '\'' ['\''] (by simp [Regex.expand])
  have hand := @gsubStr_self '&' ['\\', '&'] (by simp [Regex.expand, Regex.reference])
  have hcomma := @gsubStr_mark ',' (by simp [Regex.expand, Regex.reference])
  have hhyphen := @gsubStr_mark '-' (by simp [Regex.expand, Regex.reference])
  have hopen := @gsubStr_mark '(' (by simp [Regex.expand, Regex.reference])
  have hclose := @gsubStr_mark ')' (by simp [Regex.expand, Regex.reference])
  have hspace := @gsubStr_mark ' ' (by simp [Regex.expand, Regex.reference])
  have hsplice : spliced (path.flatMap fun d => if d = ',' then ['\\', ','] else [d]) =
      (spliced path).flatMap fun d => if d = ',' then ['\\', ','] else [d] := by
    refine spliced_flatMap (by simp) ?_ path
    intro c hc
    by_cases hcomma : c = ','
    · simp [hcomma]
    · simpa [hcomma] using Ne.symm hc
  simp only [escapedPath, ToEscape, List.foldl_cons, List.foldl_nil, hback, hdouble, hsingle, hand,
    hcomma, hhyphen, hopen, hclose, hspace, gsubStr_splice, hsplice, List.flatMap_assoc]
  -- one character at a time
  rw [escaped]
  congr 1
  funext c
  by_cases hmarked : c ∈ [',', '-', '(', ')', ' ']
  · have hcases : c = ',' ∨ c = '-' ∨ c = '(' ∨ c = ')' ∨ c = ' ' := by simpa using hmarked
    rcases hcases with rfl | rfl | rfl | rfl | rfl
    all_goals rfl
  · have hne : c ≠ ',' ∧ c ≠ '-' ∧ c ≠ '(' ∧ c ≠ ')' ∧ c ≠ ' ' := by simpa using hmarked
    simp [escape, isMarked, hne]

theorem escaped_cons (c : Char) (s : Str) : escaped (c :: s) = escape c ++ escaped s := rfl

theorem escaped_cons_marked {c : Char} (hc : isMarked c = true) (s : Str) :
    escaped (c :: s) = '\\' :: c :: escaped s := by
  simp [escaped_cons, escape, hc]

theorem escaped_cons_not_marked {c : Char} (hc : isMarked c = false) (s : Str) :
    escaped (c :: s) = c :: escaped s := by
  simp [escaped_cons, escape, hc]

/-- A marked character is none that quotes. -/
theorem ne_of_marked {c : Char} (hc : isMarked c = true) :
    c ≠ '\\' ∧ c ≠ '\'' ∧ c ≠ '"' ∧ c ≠ '\n' ∧ Shell.isEscapable c = false := by
  have hcases : c = ',' ∨ c = '-' ∨ c = '(' ∨ c = ')' ∨ c = ' ' := by simpa [isMarked] using hc
  rcases hcases with rfl | rfl | rfl | rfl | rfl
  all_goals decide

theorem startsExpansion_escaped (s : Str) :
    Shell.startsExpansion (escaped s) =
      s.head?.any fun d => !isMarked d && Shell.startsExpansion [d] := by
  cases s with
  | nil => rfl
  | cons d s =>
      cases hd : isMarked d with
      -- the backslash in front of it is no name
      | true => simp [escaped_cons, escape, hd, Shell.startsExpansion]
      | false => simp [escaped_cons, escape, hd, Shell.startsExpansion]

/-! ## Paths that come back -/

/-- The escapes that are there are enough for `c` in front of `s`: a backslash stands in front of a
comma or a hyphen, whose own backslash it is taken for. -/
def Covered (c : Char) (s : Str) : Prop :=
  if c = '\\' then s.head? = some ',' ∨ s.head? = some '-'
  else isMarked c = true ∨
    (Shell.isPlain c = true ∧
      (c = '$' → (s.head?.any fun d => !isMarked d && Shell.startsExpansion [d]) = false))

def UndoneTail : Str → Prop
  | [] => True
  | c :: s => Covered c s ∧ UndoneTail s

/-- A path that needs no escape but those that `escaped_path` makes, and has no single quote. -/
def Undone (path : Str) : Prop :=
  path ≠ [] ∧ path.head? ≠ some '#' ∧ path.head? ≠ some '~' ∧ UndoneTail path

instance (c : Char) (s : Str) : Decidable (Covered c s) := by
  unfold Covered
  infer_instance

instance decidableUndoneTail : (s : Str) → Decidable (UndoneTail s)
  | [] => inferInstanceAs (Decidable True)
  | c :: s =>
      have := decidableUndoneTail s
      inferInstanceAs (Decidable (Covered c s ∧ UndoneTail s))

instance (path : Str) : Decidable (Undone path) :=
  inferInstanceAs (Decidable (path ≠ [] ∧ path.head? ≠ some '#' ∧ path.head? ≠ some '~' ∧ _))

theorem not_mem_of_undoneTail {s : Str} (h : UndoneTail s) : '\'' ∉ s := by
  induction s with
  | nil => simp
  | cons c s ih =>
      have hc : c ≠ '\'' := by
        rintro rfl
        have hcovered := h.1
        simp [Covered, isMarked, Shell.isPlain] at hcovered
      simp [Ne.symm hc, ih h.2]

/-- How an escaped text begins, by the first characters of its path. -/
inductive Front : Char → Str → Str → Prop
  | marked {c : Char} {s : Str} (hc : isMarked c = true) : Front c s ('\\' :: c :: escaped s)
  | backslashEnd : Front '\\' [] ['\\']
  /-- the backslash is taken to escape the one in front of a marked character -/
  | backslashMarked {d : Char} {s : Str} (hd : isMarked d = true) :
      Front '\\' (d :: s) ('\\' :: '\\' :: d :: escaped s)
  | backslash {d : Char} {s : Str} (hd : isMarked d = false) (hnl : d ≠ '\n') :
      Front '\\' (d :: s) ('\\' :: d :: escaped s)
  | doubleQuote {s : Str} : Front '"' s ('"' :: escaped s)
  | other {c : Char} {s : Str} (hmarked : isMarked c = false) (hback : c ≠ '\\')
      (hdouble : c ≠ '"') : Front c s (c :: escaped s)

theorem front {c : Char} {s : Str} (hnl : '\n' ∉ s) : Front c s (escaped (c :: s)) := by
  cases hmarked : isMarked c with
  | true =>
      rw [escaped_cons_marked hmarked]
      exact .marked hmarked
  | false =>
      rw [escaped_cons_not_marked hmarked]
      by_cases hback : c = '\\'
      · subst hback
        cases s with
        | nil => exact .backslashEnd
        | cons d s =>
            cases hd : isMarked d with
            | true =>
                rw [escaped_cons_marked hd]
                exact .backslashMarked hd
            | false =>
                rw [escaped_cons_not_marked hd]
                refine .backslash hd ?_
                rintro rfl
                simp at hnl
      · by_cases hdouble : c = '"'
        · subst hdouble
          exact .doubleQuote
        · exact .other hmarked hback hdouble

section Reading

variable {word : Option Shell.Word} {t : Str}

theorem scan_bare_escape {d : Char} (hd : d ≠ '\n') :
    Shell.scan .bare word ('\\' :: d :: t) = Shell.scan .bare (some (word.getD [] ++ [d])) t := by
  simp [Shell.scan, hd]

theorem scan_double_escape {d : Char} (hd : d ≠ '\n') :
    Shell.scan .double word ('\\' :: d :: t) =
      if Shell.isEscapable d then Shell.scan .double (some (word.getD [] ++ [d])) t
      else Shell.scan .double (some (word.getD [] ++ ['\\', d])) t := by
  simp [Shell.scan, hd]

end Reading

/-- A covered text is read as the path it was made from. -/
theorem scan_escaped : (s : Str) → {word : Option Shell.Word} → UndoneTail s →
    (word = none → s ≠ [] ∧ s.head? ≠ some '#' ∧ s.head? ≠ some '~') →
    Shell.scan .bare word (escaped s) = some [word.getD [] ++ s]
  | [], word, _, hword => by
      cases word with
      | none => exact absurd rfl (hword rfl).1
      | some w => simp [escaped, Shell.scan]
  | c :: s, word, h, hword => by
      by_cases hback : c = '\\'
      · subst hback
        cases s with
        | nil => simp [UndoneTail, Covered] at h
        | cons d s =>
            have hd : d = ',' ∨ d = '-' := by simpa [Covered] using h.1
            have hmarked : isMarked d = true := by
              rcases hd with rfl | rfl
              all_goals rfl
            -- the backslash comes out, and the character behind it needs none
            have hplain : Shell.isPlain d = true ∧ d ≠ '$' := by
              rcases hd with rfl | rfl
              all_goals decide
            have ih := @scan_escaped s (some (word.getD [] ++ ['\\'] ++ [d])) h.2.2 (by simp)
            rw [escaped_cons_not_marked (by decide), escaped_cons_marked hmarked,
              scan_bare_escape (by decide),
              Shell.scan_plain hplain.1 (fun hdollar => absurd hdollar hplain.2) (by simp)]
            simpa using ih
      · have hcovered : isMarked c = true ∨ (Shell.isPlain c = true ∧
            (c = '$' → (s.head?.any fun d => !isMarked d && Shell.startsExpansion [d]) = false)) := by
          simpa [Covered, hback] using h.1
        have ih := @scan_escaped s (some (word.getD [] ++ [c])) h.2 (by simp)
        cases hmarked : isMarked c with
        | true =>
            rw [escaped_cons_marked hmarked, scan_bare_escape (ne_of_marked hmarked).2.2.2.1]
            simpa using ih
        | false =>
            have hplain := hcovered.resolve_left (by simp [hmarked])
            have hstart : word = none → c ≠ '#' ∧ c ≠ '~' := by
              intro hnone
              have hhead := (hword hnone).2
              simpa using hhead
            have hdollar : c = '$' → Shell.startsExpansion (escaped s) = false := by
              intro hc
              rw [startsExpansion_escaped, hplain.2 hc]
            rw [escaped_cons_not_marked hmarked, Shell.scan_plain hplain.1 hdollar hstart]
            simpa using ih

/-! ## Paths that do not -/

/-- What was read last is what comes next in the path. -/
theorem prefix_of_scan {q : Shell.Quote} {w u v t : Str}
    (h : Shell.scan q (some (w ++ u)) t = some [w ++ v]) : u <+: v := by
  rcases Shell.scan_begun _ _ _ rfl h with ⟨x, rest, hwords⟩
  have hword : w ++ v = w ++ u ++ x := (List.cons.inj hwords).1
  rw [List.append_assoc, List.append_cancel_left_eq] at hword
  exact ⟨x, hword.symm⟩

/-- Outside quotes a character that quotes nothing is the next one of the word, or a blank behind it. -/
theorem next_of_bare {w v t : Str} {c : Char} (hback : c ≠ '\\') (hsingle : c ≠ '\'')
    (hdouble : c ≠ '"') (h : Shell.scan .bare (some w) (c :: t) = some [w ++ v]) :
    [c] <+: v ∨ v = [] := by
  rw [Shell.scan_bare_cons hback, if_neg hsingle, if_neg hdouble] at h
  split at h
  · rcases Option.map_eq_some_iff.1 h with ⟨rest, _, hwords⟩
    right
    simpa using (List.cons.inj hwords).1.symm
  · split at h
    · cases h
    · split at h
      · cases h
      · split at h
        · cases h
        · exact Or.inl (prefix_of_scan h)

theorem next_of_double {w v t : Str} {c : Char} (hback : c ≠ '\\') (hdouble : c ≠ '"')
    (h : Shell.scan .double (some w) (c :: t) = some [w ++ v]) : [c] <+: v := by
  rw [Shell.scan_double_cons hback, if_neg hdouble] at h
  split at h
  · cases h
  · split at h
    · cases h
    · exact prefix_of_scan h

def IsQuoting (c : Char) : Prop :=
  c = '\\' ∨ c = '"'

/-- The text stays behind: `lag` are the characters that it was made from and that did not come out
yet.  A backslash alone would be made up for between double quotes. -/
structure Behind (q : Shell.Quote) (lag : Str) : Prop where
  ne_nil : lag ≠ []
  quoting : ∀ x ∈ lag, IsQuoting x
  double : q = .double → lag ≠ ['\\']

theorem isQuoting_of_prefix {l t : Str} {c d : Char} (hl : ∀ x ∈ l, IsQuoting x) (hc : IsQuoting c)
    (h : [d] <+: l ++ c :: t) : IsQuoting d := by
  cases l with
  | nil =>
      have hd : d = c := by simpa using h
      exact hd ▸ hc
  | cons x l =>
      have hd : d = x := by simpa using h
      exact hd ▸ hl x (by simp)

theorem not_isQuoting_of_marked {c : Char} (hc : isMarked c = true) : ¬ IsQuoting c := by
  have hne := ne_of_marked hc
  rintro (hback | hdouble)
  · exact hne.1 hback
  · exact hne.2.2.1 hdouble

namespace Behind

variable {lag : Str}

/-- What comes out has to be the first character of the lag. -/
theorem exists_of_prefix {q : Shell.Quote} {v : Str} {c : Char} (h : Behind q lag)
    (hc : [c] <+: lag ++ v) : IsQuoting c ∧ ∃ rest, lag = c :: rest ∧ ∀ x ∈ rest, IsQuoting x := by
  cases lag with
  | nil => exact absurd rfl h.ne_nil
  | cons x rest =>
      have hx : c = x := by simpa using hc
      subst hx
      exact ⟨h.quoting c (by simp), rest, rfl, fun x hx => h.quoting x (by simp [hx])⟩

/-- A lag of two characters or more. -/
theorem of_two (q : Shell.Quote) {l : Str} {c d : Char} (hl : ∀ x ∈ l, IsQuoting x)
    (hc : IsQuoting c) (hd : IsQuoting d) : Behind q (l ++ [c, d]) where
  ne_nil := by simp
  quoting := by
    intro x hx
    rcases List.mem_append.1 hx with hx | hx
    · exact hl x hx
    · rcases List.mem_pair.1 hx with rfl | rfl
      · exact hc
      · exact hd
  double := by
    intro _ h
    have hlen := congrArg List.length h
    simp at hlen

/-- A double quote changes the mode and makes the lag longer. -/
theorem quote {q : Shell.Quote} (h : Behind q lag) (q' : Shell.Quote) : Behind q' (lag ++ ['"']) where
  ne_nil := by simp
  quoting := by
    intro x hx
    rcases List.mem_append.1 hx with hx | hx
    · exact h.quoting x hx
    · exact Or.inr (List.mem_singleton.1 hx)
  double := by
    intro _ heq
    have hlast := congrArg List.getLast? heq
    simp at hlast

/-- The reading goes on with less of the path, and stays behind. -/
def Goes (s : Str) : Prop :=
  ∃ (q : Shell.Quote) (lag w rest : Str), (q = .bare ∨ q = .double) ∧ Behind q lag ∧ rest <:+ s ∧
    Shell.scan q (some w) (escaped rest) = some [w ++ (lag ++ rest)]

theorem bare_step (h : Behind .bare lag) {w s : Str} {c : Char} (hsingle : c ≠ '\'')
    (hnl : '\n' ∉ s)
    (hscan : Shell.scan .bare (some w) (escaped (c :: s)) = some [w ++ (lag ++ c :: s)]) :
    Goes s := by
  have hfront := @front c s hnl
  generalize escaped (c :: s) = text at hfront hscan
  cases hfront with
  | marked hc =>
      -- an escaped character comes out, and is none of the lag
      rw [scan_bare_escape (ne_of_marked hc).2.2.2.1] at hscan
      have hquoting := (h.exists_of_prefix (prefix_of_scan hscan)).1
      exact absurd hquoting (not_isQuoting_of_marked hc)
  | backslashEnd => simp [Shell.scan] at hscan
  | @backslashMarked d s hd =>
      rw [scan_bare_escape (by decide)] at hscan
      rcases h.exists_of_prefix (prefix_of_scan hscan) with ⟨_, rest, hlag, hrest⟩
      have hscan' : Shell.scan .bare (some (w ++ ['\\'])) (d :: escaped s) =
          some [w ++ ['\\'] ++ (rest ++ '\\' :: d :: s)] := by
        simpa [hlag] using hscan
      have hne := ne_of_marked hd
      rcases next_of_bare hne.1 hne.2.1 hne.2.2.1 hscan' with hprefix | hnil
      · have hquoting := isQuoting_of_prefix hrest (Or.inl rfl) hprefix
        exact absurd hquoting (not_isQuoting_of_marked hd)
      · simp at hnil
  | @backslash d s hd hdnl =>
      rw [scan_bare_escape hdnl] at hscan
      rcases h.exists_of_prefix (prefix_of_scan hscan) with ⟨hquoting, rest, hlag, hrest⟩
      refine ⟨.bare, rest ++ ['\\', d], w ++ [d], s, Or.inl rfl,
        of_two _ hrest (Or.inl rfl) hquoting, List.suffix_cons d s, ?_⟩
      simpa [hlag] using hscan
  | doubleQuote =>
      have hscan' : Shell.scan .double (some w) (escaped s) = some [w ++ (lag ++ '"' :: s)] := by
        simpa [Shell.scan_bare_cons] using hscan
      refine ⟨.double, lag ++ ['"'], w, s, Or.inr rfl, h.quote _, List.suffix_rfl, ?_⟩
      simpa using hscan'
  | other _ hback hdouble =>
      rcases next_of_bare hback hsingle hdouble hscan with hprefix | hnil
      · exact absurd (h.exists_of_prefix hprefix).1 (by simp [IsQuoting, hback, hdouble])
      · simp at hnil

theorem double_step (h : Behind .double lag) {w s : Str} {c : Char} (hnl : '\n' ∉ s)
    (hscan : Shell.scan .double (some w) (escaped (c :: s)) = some [w ++ (lag ++ c :: s)]) :
    Goes s := by
  have hfront := @front c s hnl
  generalize escaped (c :: s) = text at hfront hscan
  cases hfront with
  | marked hc =>
      -- the backslash comes out with the character, which is right for a lag of one backslash only
      have hne := ne_of_marked hc
      rw [scan_double_escape hne.2.2.2.1, if_neg (by simp [hne.2.2.2.2])] at hscan
      have hpair : ['\\', c] <+: lag ++ c :: s := prefix_of_scan hscan
      rcases h.exists_of_prefix (List.IsPrefix.trans ⟨[c], rfl⟩ hpair) with ⟨_, rest, hlag, hrest⟩
      cases rest with
      | nil => exact absurd hlag (h.double rfl)
      | cons x rest =>
          have hx : c = x := by simpa [hlag] using hpair
          exact absurd (hrest x (by simp)) (hx ▸ not_isQuoting_of_marked hc)
  | backslashEnd => simp [Shell.scan] at hscan
  | @backslashMarked d s hd =>
      rw [scan_double_escape (by decide), if_pos (by decide)] at hscan
      rcases h.exists_of_prefix (prefix_of_scan hscan) with ⟨_, rest, hlag, hrest⟩
      have hscan' : Shell.scan .double (some (w ++ ['\\'])) (d :: escaped s) =
          some [w ++ ['\\'] ++ (rest ++ '\\' :: d :: s)] := by
        simpa [hlag] using hscan
      have hne := ne_of_marked hd
      have hprefix := next_of_double hne.1 hne.2.2.1 hscan'
      have hquoting := isQuoting_of_prefix hrest (Or.inl rfl) hprefix
      exact absurd hquoting (not_isQuoting_of_marked hd)
  | @backslash d s hd hdnl =>
      rw [scan_double_escape hdnl] at hscan
      split at hscan
      · rcases h.exists_of_prefix (prefix_of_scan hscan) with ⟨hquoting, rest, hlag, hrest⟩
        refine ⟨.double, rest ++ ['\\', d], w ++ [d], s, Or.inr rfl,
          of_two _ hrest (Or.inl rfl) hquoting, List.suffix_cons d s, ?_⟩
        simpa [hlag] using hscan
      · next hesc =>
          -- a backslash that escapes nothing is followed by no quoting character
          have hpair : ['\\', d] <+: lag ++ '\\' :: d :: s := prefix_of_scan hscan
          rcases h.exists_of_prefix (List.IsPrefix.trans ⟨[d], rfl⟩ hpair) with
            ⟨_, rest, hlag, hrest⟩
          have hnext : [d] <+: rest ++ '\\' :: d :: s := by simpa [hlag] using hpair
          rcases isQuoting_of_prefix hrest (Or.inl rfl) hnext with rfl | rfl
          · exact absurd rfl hesc
          · exact absurd rfl hesc
  | doubleQuote =>
      have hscan' : Shell.scan .bare (some w) (escaped s) = some [w ++ (lag ++ '"' :: s)] := by
        simpa [Shell.scan_double_cons] using hscan
      refine ⟨.bare, lag ++ ['"'], w, s, Or.inl rfl, h.quote _, List.suffix_rfl, ?_⟩
      simpa using hscan'
  | other _ hback hdouble =>
      have hprefix := next_of_double hback hdouble hscan
      exact absurd (h.exists_of_prefix hprefix).1 (by simp [IsQuoting, hback, hdouble])

/-- Text that stays behind never comes out as the path. -/
theorem scan_ne {q : Shell.Quote} (hq : q = .bare ∨ q = .double) :
    (s : Str) → {lag w : Str} → Behind q lag → '\'' ∉ s → '\n' ∉ s →
      Shell.scan q (some w) (escaped s) ≠ some [w ++ (lag ++ s)]
  | [], lag, w, h, _, _ => by
      intro hscan
      rcases hq with rfl | rfl
      · have hnil : lag = [] := by simpa [escaped, Shell.scan] using hscan
        exact h.ne_nil hnil
      · simp [escaped, Shell.scan] at hscan
  | c :: s, lag, w, h, hsingle, hnl => by
      intro hscan
      have hc : c ≠ '\'' := fun hc => hsingle (by simp [hc])
      have hs : '\n' ∉ s := fun hmem => hnl (by simp [hmem])
      have hgoes : Goes s := by
        rcases hq with rfl | rfl
        · exact bare_step h hc hs hscan
        · exact double_step h hs hscan
      rcases hgoes with ⟨q', lag', w', rest, hq', h', hrest, hscan'⟩
      have hlt : rest.length < (c :: s).length := Nat.lt_succ_of_le hrest.length_le
      exact scan_ne hq' rest h' (fun hmem => hsingle (by simp [hrest.subset hmem]))
        (fun hmem => hs (hrest.subset hmem)) hscan'
termination_by s => s.length
decreasing_by exact hlt

end Behind

/-- A character that quotes nothing and comes out as it is. -/
theorem plain_of_scan {w t v : Str} {c : Char} (hback : c ≠ '\\') (hsingle : c ≠ '\'')
    (hdouble : c ≠ '"') (h : Shell.scan .bare (some w) (c :: t) = some [w ++ c :: v]) :
    Shell.isPlain c = true ∧ (c = '$' → Shell.startsExpansion t = false) ∧
      Shell.scan .bare (some (w ++ [c])) t = some [w ++ [c] ++ v] := by
  rcases Shell.scan_bare_cases h with ⟨hcback, _⟩ | ⟨hcsingle, _⟩ | hcdouble |
    ⟨_, rest, _, hwords⟩ | ⟨hplain, hdollar, _, hnext⟩
  · exact absurd hcback hback
  · exact absurd hcsingle hsingle
  · exact absurd hcdouble hdouble
  -- a blank would have ended the word
  · have hnil := (List.cons.inj hwords).1
    simp at hnil
  · exact ⟨hplain, hdollar, by simpa using hnext⟩

theorem comma_or_hyphen {c : Char} (hmarked : isMarked c = true) (hplain : Shell.isPlain c = true) :
    c = ',' ∨ c = '-' := by
  have hcases : c = ',' ∨ c = '-' ∨ c = '(' ∨ c = ')' ∨ c = ' ' := by simpa [isMarked] using hmarked
  rcases hcases with rfl | rfl | rfl | rfl | rfl
  · exact Or.inl rfl
  · exact Or.inr rfl
  all_goals simp [Shell.isPlain, Shell.isOperator, Shell.isBlank] at hplain

/-- A path without single quotes whose text comes out as it is needs no other escape. -/
theorem undoneTail_of_scan : (s : Str) → {w : Str} → '\'' ∉ s → '\n' ∉ s →
    Shell.scan .bare (some w) (escaped s) = some [w ++ s] → UndoneTail s
  | [], _, _, _, _ => trivial
  | c :: s, w, hsingle, hnl, hscan => by
      have hc : c ≠ '\'' := fun hc => hsingle (by simp [hc])
      have hs : '\'' ∉ s := fun hmem => hsingle (by simp [hmem])
      have hsnl : '\n' ∉ s := fun hmem => hnl (by simp [hmem])
      have hfront := @front c s hsnl
      generalize escaped (c :: s) = text at hfront hscan
      cases hfront with
      | marked hmarked =>
          have hne := ne_of_marked hmarked
          rw [scan_bare_escape hne.2.2.2.1] at hscan
          have ih := @undoneTail_of_scan s (w ++ [c]) hs hsnl (by simpa using hscan)
          exact ⟨by simp [Covered, hne.1, hmarked], ih⟩
      | backslashEnd => simp [Shell.scan] at hscan
      | @backslashMarked d s hd =>
          rw [scan_bare_escape (by decide)] at hscan
          have hne := ne_of_marked hd
          have hscan' : Shell.scan .bare (some (w ++ ['\\'])) (d :: escaped s) =
              some [w ++ ['\\'] ++ d :: s] := by
            simpa using hscan
          -- without its own backslash a parenthesis or a space does not come out
          rcases plain_of_scan hne.1 hne.2.1 hne.2.2.1 hscan' with ⟨hplain, _, hnext⟩
          have hd' := comma_or_hyphen hd hplain
          have ih := @undoneTail_of_scan s _ (fun hmem => hs (by simp [hmem]))
            (fun hmem => hsnl (by simp [hmem])) hnext
          exact ⟨by simpa [Covered] using hd', by simp [Covered, hne.1, hd], ih⟩
      | @backslash d s hd hdnl =>
          rw [scan_bare_escape hdnl] at hscan
          have hprefix : [d] <+: '\\' :: d :: s := prefix_of_scan hscan
          have hdback : d = '\\' := by simpa using hprefix
          subst hdback
          have hbehind : Behind .bare ['\\'] :=
            { ne_nil := by simp, quoting := by simp [IsQuoting], double := by simp }
          have hscan' : Shell.scan .bare (some (w ++ ['\\'])) (escaped s) =
              some [w ++ ['\\'] ++ (['\\'] ++ s)] := by
            simpa using hscan
          exact absurd hscan' (hbehind.scan_ne (Or.inl rfl) s
            (fun hmem => hs (by simp [hmem])) (fun hmem => hsnl (by simp [hmem])))
      | doubleQuote =>
          have hscan' : Shell.scan .double (some w) (escaped s) = some [w ++ (['"'] ++ s)] := by
            simpa [Shell.scan_bare_cons] using hscan
          have hbehind : Behind .double ['"'] :=
            { ne_nil := by simp, quoting := by simp [IsQuoting], double := by simp }
          exact absurd hscan' (hbehind.scan_ne (Or.inr rfl) s hs hsnl)
      | other _ hback hdouble =>
          rcases plain_of_scan hback hc hdouble hscan with ⟨hplain, hdollar, hnext⟩
          have ih := @undoneTail_of_scan s _ hs hsnl hnext
          refine ⟨?_, ih⟩
          rw [Covered, if_neg hback]
          refine Or.inr ⟨hplain, ?_⟩
          intro hc'
          rw [← startsExpansion_escaped]
          exact hdollar hc'

theorem count_escaped {x : Char} (hx : x ≠ '\\') (s : Str) : (escaped s).count x = s.count x := by
  induction s with
  | nil => rfl
  | cons c s ih =>
      cases hmarked : isMarked c with
      | true =>
          rw [escaped_cons_marked hmarked, List.count_cons_of_ne (Ne.symm hx), List.count_cons,
            List.count_cons, ih]
      | false => rw [escaped_cons_not_marked hmarked, List.count_cons, List.count_cons, ih]

/-- A path that comes back can as well be read as if its word had begun in front of it. -/
theorem scan_some_of_none {c : Char} {s : Str} (hnl : '\n' ∉ c :: s)
    (h : Shell.scan .bare none (escaped (c :: s)) = some [c :: s]) :
    c ≠ '#' ∧ c ≠ '~' ∧ Shell.scan .bare (some []) (escaped (c :: s)) = some [c :: s] := by
  cases hmarked : isMarked c with
  | true =>
      have hstart : c ≠ '#' ∧ c ≠ '~' := by
        constructor
        · rintro rfl
          simp [isMarked] at hmarked
        · rintro rfl
          simp [isMarked] at hmarked
      rw [escaped_cons_marked hmarked, scan_bare_escape (ne_of_marked hmarked).2.2.2.1] at h ⊢
      exact ⟨hstart.1, hstart.2, h⟩
  | false =>
      rw [escaped_cons_not_marked hmarked] at h ⊢
      by_cases hback : c = '\\'
      · subst hback
        refine ⟨by simp, by simp, ?_⟩
        cases htext : escaped s with
        | nil => simp [htext, Shell.scan] at h
        | cons e t =>
            have hnot : '\n' ∉ escaped s := by
              rw [← List.count_eq_zero, count_escaped (by decide), List.count_eq_zero]
              exact fun hmem => hnl (by simp [hmem])
            have he : e ≠ '\n' := by
              rintro rfl
              simp [htext] at hnot
            rw [htext, scan_bare_escape he] at h
            rw [scan_bare_escape he]
            exact h
      · cases hblank : Shell.isBlank c with
        | true =>
            -- a leading blank is lost
            have hquotes : c ≠ '\'' ∧ c ≠ '"' := by
              constructor
              · rintro rfl
                simp [Shell.isBlank] at hblank
              · rintro rfl
                simp [Shell.isBlank] at hblank
            have hrest : Shell.scan .bare none (escaped s) = some [c :: s] := by
              simpa [Shell.scan_bare_cons hback, hquotes, hblank] using h
            have hcount := (Shell.count_of_scan c _ _ _ hrest).1
            rw [count_escaped hback, List.flatten_singleton, List.count_cons_self,
              Option.getD_none, List.count_nil] at hcount
            omega
        | false =>
            by_cases hstart : c = '#' ∨ c = '~'
            · have hnone : Shell.scan .bare none (c :: escaped s) = none := by
                rcases hstart with rfl | rfl
                all_goals
                  rw [Shell.scan_bare_cons (by decide)]
                  simp [Shell.isBlank]
              rw [hnone] at h
              cases h
            · have hne : c ≠ '#' ∧ c ≠ '~' := by simpa using hstart
              rw [← Shell.scan_none_cons hback hblank hne.1 hne.2]
              exact ⟨hne.1, hne.2, h⟩

/-- Without single quotes the condition is exact. -/
theorem scan_escaped_iff {path : Str} (hsingle : '\'' ∉ path) (hnl : '\n' ∉ path) :
    Shell.scan .bare none (escaped path) = some [path] ↔ Undone path := by
  constructor
  · intro h
    cases path with
    | nil => simp [escaped, Shell.scan] at h
    | cons c s =>
        rcases scan_some_of_none hnl h with ⟨hsharp, htilde, hscan⟩
        have htail := @undoneTail_of_scan (c :: s) [] hsingle hnl hscan
        exact ⟨by simp, by simpa using hsharp, by simpa using htilde, htail⟩
  · rintro ⟨hne, hsharp, htilde, htail⟩
    exact scan_escaped path htail fun _ => ⟨hne, hsharp, htilde⟩

/-! ## Paths with single quotes -/

/-- Three single quotes or more, and nothing but quoting characters and blanks behind the first. -/
def Entangled (path : Str) : Prop :=
  3 ≤ path.count '\'' ∧
    ∀ c ∈ path.dropWhile (· != '\''), Shell.isDropped c = true

instance (path : Str) : Decidable (Entangled path) :=
  inferInstanceAs (Decidable (_ ∧ ∀ c ∈ path.dropWhile (· != '\''), Shell.isDropped c = true))

/-- Every single quote is replaced by a text that has those behind it. -/
theorem count_quote_spliced (s : Str) :
    2 * (spliced s).count '\'' = s.count '\'' * (s.count '\'' - 1) := by
  induction s with
  | nil => rfl
  | cons c s ih =>
      by_cases hc : c = '\''
      · subst hc
        have hspliced : spliced ('\'' :: s) = s ++ spliced s := by simp [spliced]
        rw [hspliced, List.count_append, List.count_cons_self, Nat.mul_add, ih]
        cases s.count '\'' with
        | zero => rfl
        | succ n =>
            simp only [Nat.add_sub_cancel]
            ring
      · have hspliced : spliced (c :: s) = c :: spliced s := by simp [spliced, hc]
        rw [hspliced, List.count_cons_of_ne hc, List.count_cons_of_ne hc, ih]

theorem count_le_spliced {x : Char} (hx : x ≠ '\'') (s : Str) : s.count x ≤ (spliced s).count x := by
  induction s with
  | nil => rfl
  | cons c s ih =>
      by_cases hc : c = '\''
      · subst hc
        have hspliced : spliced ('\'' :: s) = s ++ spliced s := by simp [spliced]
        rw [hspliced, List.count_append, List.count_cons_of_ne (Ne.symm hx)]
        omega
      · have hspliced : spliced (c :: s) = c :: spliced s := by simp [spliced, hc]
        rw [hspliced, List.count_cons, List.count_cons]
        omega

/-- What stands behind a single quote comes once more. -/
theorem count_lt_spliced {x : Char} (hx : x ≠ '\'') {s : Str}
    (hmem : x ∈ s.dropWhile (· != '\'')) : s.count x < (spliced s).count x := by
  induction s with
  | nil => simp at hmem
  | cons c s ih =>
      by_cases hc : c = '\''
      · subst hc
        have hxs : x ∈ s := by simpa [hx] using hmem
        have hspliced : spliced ('\'' :: s) = s ++ spliced s := by simp [spliced]
        have hpos : 0 < s.count x := List.count_pos_iff.2 hxs
        have hle := count_le_spliced hx s
        rw [hspliced, List.count_append, List.count_cons_of_ne (Ne.symm hx)]
        omega
      · have hspliced : spliced (c :: s) = c :: spliced s := by simp [spliced, hc]
        have hrest := ih (by simpa [hc] using hmem)
        rw [hspliced, List.count_cons, List.count_cons]
        omega

theorem entangled_of_scan {path : Str} (hsingle : '\'' ∈ path)
    (h : Shell.scan .bare none (escaped (spliced path)) = some [path]) : Entangled path := by
  have hflat : [path].flatten = path := by simp
  constructor
  · -- all single quotes of the path have to be there to come out
    have hle := (Shell.count_of_scan '\'' _ _ _ h).1
    rw [hflat, count_escaped (by decide), Option.getD_none, List.count_nil, Nat.zero_add] at hle
    have hcount := count_quote_spliced path
    have hpos : 0 < path.count '\'' := List.count_pos_iff.2 hsingle
    by_contra hfew
    have hcases : path.count '\'' = 1 ∨ path.count '\'' = 2 := by omega
    rcases hcases with hone | htwo
    · rw [hone] at hcount hle
      omega
    · rw [htwo] at hcount hle
      omega
  · intro c hc
    cases hdropped : Shell.isDropped c with
    | true => rfl
    | false =>
        have hne : c ≠ '\\' ∧ c ≠ '\'' := by
          constructor
          · rintro rfl
            simp [Shell.isDropped] at hdropped
          · rintro rfl
            simp [Shell.isDropped] at hdropped
        have hcount := (Shell.count_of_scan c _ _ _ h).2 hdropped
        rw [hflat, count_escaped hne.1, Option.getD_none, List.count_nil, Nat.zero_add] at hcount
        have hlt := count_lt_spliced hne.2 hc
        omega

/-- An escaped path is read back if it needs no other escape, and, single quotes that entangle it
aside, only then. -/
theorem escapedPath_read (path : Str) (hnl : '\n' ∉ path) :
    (Undone path → Shell.scan .bare none (escapedPath path) = some [path]) ∧
      (Shell.scan .bare none (escapedPath path) = some [path] → Undone path ∨ Entangled path) := by
  rw [escapedPath_eq]
  constructor
  · intro h
    have hsingle := not_mem_of_undoneTail h.2.2.2
    rw [spliced_of_not_mem hsingle]
    exact (scan_escaped_iff hsingle hnl).2 h
  · intro h
    by_cases hsingle : '\'' ∈ path
    · exact Or.inr (entangled_of_scan hsingle h)
    · rw [spliced_of_not_mem hsingle] at h
      exact Or.inl ((scan_escaped_iff hsingle hnl).1 h)

theorem escapedPath_read_sample :
    Shell.scan .bare none (escapedPath "/v/a b, (c)\\-d$-e.avi".toList) =
      some ["/v/a b, (c)\\-d$-e.avi".toList] := by
  have hread := escapedPath_read "/v/a b, (c)\\-d$-e.avi".toList (by simp)
  exact hread.1 (by decide)

/-- A single quote is replaced by the letter behind it. -/
theorem single_quote_lost :
    Shell.scan .bare none (escapedPath "/v/it's".toList) = some ["/v/itss".toList] := by
  have htext : escaped (spliced "/v/it's".toList) = escaped "/v/itss".toList := by decide
  rw [escapedPath_eq, htext]
  exact scan_escaped _ (by decide) (by decide)

-- an entangled path that comes back by accident
example : Shell.scan .bare none (escapedPath "\\'\\\\'\"\\\\\\'\"\\\"\"\"".toList) =
    some ["\\'\\\\'\"\\\\\\'\"\\\"\"\"".toList] := by
  simp [escapedPath_eq, spliced, escaped, escape, isMarked, Shell.scan, Shell.isEscapable]

end Yikes
