import Yikes.Lib.Utility

/-!
# Chomp — what `super_chomp` keeps of a text

The first substitution of `super_chomp` drops the non-word characters in front of every line end
(`dropTails`), the second one those behind every line start (`dropHeads`).  Between the first and the
last word character this changes nothing exactly if every line break stands between two word
characters (`superChomp_eq_trimmed_iff`).  In any case what is left is the lines, each trimmed, without
those that are blank (`superChomp_lines`).
-/

namespace Yikes

open Ruby

/-! ## The non-word characters in front of a line end -/

/-- Only non-word characters stand in front of the next line end. -/
def tailAhead : Str → Bool
  | [] => true
  | c :: s => !isWord c && (c == '\n' || tailAhead s)

def dropTails : Str → Str
  | [] => []
  | c :: s => if !isWord c && tailAhead s then dropTails s else c :: dropTails s

theorem isWord_newline : isWord '\n' = false := by decide

theorem ne_newline {c : Char} (hc : isWord c = true) : c ≠ '\n' := by
  rintro rfl
  simp [isWord_newline] at hc

theorem matchAt_lineTail_nil (prev : Option Char) :
    Regex.matchAt lineTail prev [] = some { text := [], rest := [] } := rfl

theorem matchAt_lineTail_word {c : Char} (hc : isWord c = true) (prev : Option Char) (s : Str) :
    Regex.matchAt lineTail prev (c :: s) = none := by
  rw [Regex.matchAt, lineTail, Regex.attempts_seq_lineEnd]
  simp [Regex.attempts, Regex.runs, hc, Regex.atLineEnd, ne_newline hc]

/-- The longest match takes a non-word character if the pattern still matches behind it. -/
theorem matchAt_lineTail_cons {c : Char} (hc : isWord c = false) (prev : Option Char) (s : Str) :
    Regex.matchAt lineTail prev (c :: s) =
      ((Regex.matchAt lineTail none s).map fun a => { a with text := c :: a.text }).or
        (if c = '\n' then some { text := [], rest := c :: s } else none) := by
  rw [Regex.matchAt, Regex.matchAt, lineTail, Regex.attempts_seq_lineEnd,
    Regex.attempts_seq_lineEnd]
  simp only [Regex.attempts, Regex.runs, hc, Bool.not_false, if_true, List.filter_append,
    List.filter_map, List.head?_append, List.head?_map]
  have hsame : ((fun a : Regex.Attempt => Regex.atLineEnd a.rest) ∘
      fun a : Regex.Attempt => { a with text := c :: a.text }) =
      fun a => Regex.atLineEnd a.rest := rfl
  rw [hsame]
  by_cases hnl : c = '\n'
  · simp [hnl, Regex.atLineEnd]
  · simp [hnl, Regex.atLineEnd]

theorem isSome_matchAt_lineTail (s : Str) :
    (Regex.matchAt lineTail none s).isSome = tailAhead s := by
  induction s with
  | nil => rfl
  | cons c s ih =>
      cases hc : isWord c with
      | true => simp [matchAt_lineTail_word hc, tailAhead, hc]
      | false =>
          rw [matchAt_lineTail_cons hc, Option.isSome_or, Option.isSome_map, ih]
          by_cases hnl : c = '\n'
          · simp [hnl, tailAhead, isWord_newline]
          · simp [hnl, tailAhead, hc]

theorem matchAt_lineTail_prev (prev prev' : Option Char) (s : Str) :
    Regex.matchAt lineTail prev s = Regex.matchAt lineTail prev' s := by
  cases s with
  | nil => rfl
  | cons c s =>
      cases hc : isWord c with
      | true => rw [matchAt_lineTail_word hc, matchAt_lineTail_word hc]
      | false => rw [matchAt_lineTail_cons hc, matchAt_lineTail_cons hc]

section Tails

variable {rep : Regex.Attempt → Str}

theorem gsubFrom_lineTail_prev (prev prev' : Option Char) (s : Str) :
    Regex.gsubFrom lineTail rep prev s = Regex.gsubFrom lineTail rep prev' s := by
  rw [Regex.gsubFrom, Regex.gsubFrom, Regex.tokensFrom_prev matchAt_lineTail_prev prev prev']

/-- A dropped character only makes the match behind it longer. -/
theorem gsubFrom_lineTail_cons (hrep : ∀ a, rep a = []) (c : Char) (s : Str) :
    Regex.gsubFrom lineTail rep none (c :: s) =
      if !isWord c && tailAhead s then Regex.gsubFrom lineTail rep none s
      else c :: Regex.gsubFrom lineTail rep none s := by
  cases hc : isWord c with
  | true =>
      rw [Regex.gsubFrom_none (matchAt_lineTail_word hc none s), gsubFrom_lineTail_prev _ none]
      simp
  | false =>
      have hmatch := matchAt_lineTail_cons hc none s
      have hsome := isSome_matchAt_lineTail s
      cases htail : Regex.matchAt lineTail none s with
      | some a =>
          rw [htail] at hmatch hsome
          have hparts : a.text ++ a.rest = s := Regex.matchAt_sound htail
          rw [Regex.gsubFrom_some hmatch (by simp), hrep, gsubFrom_lineTail_prev _ none]
          -- behind the longer match the text goes on as behind the shorter one
          by_cases hempty : a.text = []
          · have hrest : a.rest = s := by simpa [hempty] using hparts
            simp [← hsome, hrest]
          · rw [Regex.gsubFrom_some htail hempty, hrep,
              gsubFrom_lineTail_prev (Regex.behind none a.text) none]
            simp [← hsome]
      | none =>
          rw [htail] at hmatch hsome
          by_cases hnl : c = '\n'
          · have hhere : Regex.matchAt lineTail none (c :: s) =
                some { text := [], rest := c :: s } := by
              simpa [hnl] using hmatch
            rw [Regex.gsubFrom_empty hhere rfl, hrep, gsubFrom_lineTail_prev _ none]
            simp [← hsome]
          · have hhere : Regex.matchAt lineTail none (c :: s) = none := by
              simpa [hnl] using hmatch
            rw [Regex.gsubFrom_none hhere, gsubFrom_lineTail_prev _ none]
            simp [← hsome]

end Tails

/-- The first substitution. -/
theorem gsubStr_lineTail (s : Str) : Regex.gsubStr lineTail [] s = dropTails s := by
  have hfrom : ∀ {rep : Regex.Attempt → Str}, (∀ a, rep a = []) → ∀ t : Str,
      Regex.gsubFrom lineTail rep none t = dropTails t := by
    intro rep hrep t
    induction t with
    | nil => simp [Regex.gsubFrom_nil, matchAt_lineTail_nil, hrep, dropTails]
    | cons c t ih => rw [gsubFrom_lineTail_cons hrep, ih, dropTails]
  exact hfrom (fun _ => rfl) s

/-! ## The non-word characters behind a line start -/

/-- `fresh` says that only non-word characters were read since the last line start. -/
def dropHeads (fresh : Bool) : Str → Str
  | [] => []
  | c :: s => if fresh && !isWord c then dropHeads true s else c :: dropHeads (c == '\n') s

/-- The last character, if there is one, is a word character. -/
def EndsInWord (s : Str) : Prop :=
  ∀ c, s.getLast? = some c → isWord c = true

theorem matchAt_lineBody_of_not {prev : Option Char} {s : Str}
    (h : Regex.atLineStart prev s = false) : Regex.matchAt lineBody prev s = none := by
  simp [Regex.matchAt, lineBody, Regex.attempts, h]

theorem nonword_of_takeWhile {s : Str} :
    ∀ c ∈ s.takeWhile fun c => !isWord c, isWord c = false := by
  intro c hc
  simpa using List.mem_takeWhile_imp hc

theorem isWord_of_dropWhile {s : Str} {w : Char} {l : Str}
    (hs : s.dropWhile (fun c => !isWord c) = w :: l) : isWord w = true := by
  have hhead := List.head?_dropWhile_not (fun c => !isWord c) s
  rw [hs] at hhead
  simpa using hhead

theorem atLineEnd_dropWhile (l : Str) : Regex.atLineEnd (l.dropWhile fun c => c != '\n') = true := by
  have hhead := List.head?_dropWhile_not (fun c => c != '\n') l
  cases hrest : l.dropWhile fun c => c != '\n' with
  | nil => rfl
  | cons c rest =>
      rw [hrest] at hhead
      simpa [Regex.atLineEnd] using hhead

/-- From a word character on, the rest of its line is taken. -/
theorem head?_attempts_line {w : Char} (hw : isWord w = true) (prev : Option Char) (l : Str) :
    (Regex.attempts (.seq (.group (.seq (.one isWord) (.many fun c => c != '\n'))) .lineEnd) prev
      (w :: l)).head? = some
      { text := w :: l.takeWhile fun c => c != '\n'
        rest := l.dropWhile fun c => c != '\n'
        captured := some (w :: l.takeWhile fun c => c != '\n') } := by
  have hend := atLineEnd_dropWhile l
  have hfirst := Regex.head?_runs (fun c => c != '\n') l
  rw [Regex.attempts_seq_lineEnd, Regex.attempts, Regex.attempts_one_seq hw, Regex.attempts]
  cases hruns : Regex.runs (fun c => c != '\n') l with
  | nil => simp [hruns] at hfirst
  | cons a as =>
      rw [hruns] at hfirst
      have ha : a = { text := l.takeWhile fun c => c != '\n'
                      rest := l.dropWhile fun c => c != '\n' } := by
        simpa using hfirst
      simp [ha, hend]

/-- At a line start the pattern passes all non-word characters, over line ends too, and takes the rest
of the line in which the next word character stands. -/
theorem matchAt_lineBody {prev : Option Char} {s : Str} {w : Char} {l : Str}
    (h : Regex.atLineStart prev s = true) (hs : s.dropWhile (fun c => !isWord c) = w :: l) :
    Regex.matchAt lineBody prev s = some
      { text := s.takeWhile (fun c => !isWord c) ++ w :: l.takeWhile fun c => c != '\n'
        rest := l.dropWhile fun c => c != '\n'
        captured := some (w :: l.takeWhile fun c => c != '\n') } := by
  have hline := head?_attempts_line (isWord_of_dropWhile hs)
  -- a shorter run of non-word characters is not followed by a word character
  have hshort : ∀ (p : Regex.Attempt → Option Char) (g : Regex.Attempt → Regex.Attempt → Regex.Attempt)
      (a : Regex.Attempt) (c : Char) (t : Str), a.rest = c :: t → (!isWord c) = true →
      (Regex.attempts (.seq (.group (.seq (.one isWord) (.many fun c => c != '\n'))) .lineEnd) (p a)
        a.rest).map (g a) = [] := by
    intro p g a c t hrest hc
    have hc' : isWord c = false := by simpa using hc
    simp [Regex.attempts, hrest, hc']
  rw [Regex.matchAt, lineBody, Regex.attempts, Regex.attempts, if_pos h, List.flatMap_singleton,
    Regex.attempts, Regex.attempts, Regex.flatMap_runs _ (hshort _ _)]
  simp [hs, hline]

theorem dropHeads_nonword {r : Str} (hr : ∀ c ∈ r, isWord c = false) (s : Str) :
    dropHeads true (r ++ s) = dropHeads true s := by
  induction r with
  | nil => rfl
  | cons c r ih =>
      have hc : isWord c = false := hr c (by simp)
      simpa [dropHeads, hc] using ih fun x hx => hr x (by simp [hx])

theorem dropHeads_line {l : Str} (hl : ∀ c ∈ l, (c != '\n') = true) (s : Str) :
    dropHeads false (l ++ s) = l ++ dropHeads false s := by
  induction l with
  | nil => rfl
  | cons c l ih =>
      have hc : (c == '\n') = false := by simpa using hl c (by simp)
      simpa [dropHeads, hc] using ih fun x hx => hl x (by simp [hx])

theorem EndsInWord.of_append {a b : Str} (h : EndsInWord (a ++ b)) : EndsInWord b := by
  intro c hc
  apply h
  rw [List.getLast?_append, hc, Option.some_or]

/-- A text that ends in a word character has one. -/
theorem EndsInWord.dropWhile {s : Str} (h : EndsInWord s) (hne : s ≠ []) :
    ∃ w l, s.dropWhile (fun c => !isWord c) = w :: l := by
  cases hs : s.dropWhile (fun c => !isWord c) with
  | cons w l => exact ⟨w, l, rfl⟩
  | nil =>
      have hlast := List.getLast?_eq_some_getLast hne
      have hnot := List.dropWhile_eq_nil_iff.1 hs _ (List.getLast_mem hne)
      simp [h _ hlast] at hnot

/-- A line that holds a word character is not followed by a line start right away. -/
theorem atLineStart_behind_line {prev : Option Char} {r l : Str} {w : Char} (hw : isWord w = true)
    (hl : ∀ c ∈ l, (c != '\n') = true) (s : Str) :
    Regex.atLineStart (Regex.behind prev (r ++ w :: l)) s = false := by
  have hmem : ∀ c ∈ w :: l, c ≠ '\n' := by
    intro c hc
    rcases List.mem_cons.1 hc with rfl | hc
    · exact ne_newline hw
    · simpa using hl c hc
  have hlast : (r ++ w :: l).getLast? = some ((w :: l).getLast (by simp)) := by
    rw [List.getLast?_append_of_ne_nil _ (by simp), List.getLast?_eq_some_getLast (by simp)]
  have hne := hmem _ (List.getLast_mem (List.cons_ne_nil w l))
  simp [Regex.behind, hlast, Regex.atLineStart, hne]

/-- The second substitution, from a position on. -/
theorem gsubFrom_lineBody {rep : Regex.Attempt → Str} (hrep : ∀ a, rep a = a.captured.getD []) :
    (prev : Option Char) → (s : Str) → EndsInWord s →
      Regex.gsubFrom lineBody rep prev s = dropHeads (Regex.atLineStart prev s) s
  | prev, [], _ => by
      have hmatch : Regex.matchAt lineBody prev [] = none := by
        cases prev <;> simp [Regex.matchAt, lineBody, Regex.attempts, Regex.runs, Regex.atLineStart]
      simp [Regex.gsubFrom_nil, hmatch, dropHeads]
  | prev, c :: s, h => by
      by_cases hstart : Regex.atLineStart prev (c :: s) = true
      · rcases h.dropWhile (by simp) with ⟨w, l, hdrop⟩
        have hw := isWord_of_dropWhile hdrop
        have hline : ∀ x ∈ l.takeWhile fun c => c != '\n', (x != '\n') = true := by
          intro x hx
          simpa using List.mem_takeWhile_imp hx
        -- the text is what is skipped, the rest of a line, and what is behind its end
        have hparts : (c :: s).takeWhile (fun c => !isWord c) ++
            w :: (l.takeWhile (fun c => c != '\n') ++ l.dropWhile fun c => c != '\n') = c :: s := by
          rw [List.takeWhile_append_dropWhile, ← hdrop, List.takeWhile_append_dropWhile]
        have hrest : (l.dropWhile fun c => c != '\n').length < (c :: s).length := by
          have hlen := congrArg List.length hparts
          simp only [List.length_append, List.length_cons] at hlen ⊢
          omega
        have hends : EndsInWord (l.dropWhile fun c => c != '\n') := by
          rw [← hparts, ← List.cons_append, ← List.append_assoc] at h
          exact h.of_append
        have ih := gsubFrom_lineBody hrep
          (Regex.behind prev ((c :: s).takeWhile (fun c => !isWord c) ++
            w :: l.takeWhile fun c => c != '\n')) _ hends
        rw [atLineStart_behind_line hw hline] at ih
        calc
          Regex.gsubFrom lineBody rep prev (c :: s)
              = w :: l.takeWhile (fun c => c != '\n') ++
                  dropHeads false (l.dropWhile fun c => c != '\n') := by
                rw [Regex.gsubFrom_some (matchAt_lineBody hstart hdrop) (by simp), ih, hrep,
                  Option.getD_some]
          _ = dropHeads true ((c :: s).takeWhile (fun c => !isWord c) ++
                w :: (l.takeWhile (fun c => c != '\n') ++ l.dropWhile fun c => c != '\n')) := by
                have hnl : (w == '\n') = false := beq_eq_false_iff_ne.2 (ne_newline hw)
                rw [dropHeads_nonword nonword_of_takeWhile, dropHeads, hw, hnl, dropHeads_line hline]
                rfl
          _ = dropHeads (Regex.atLineStart prev (c :: s)) (c :: s) := by rw [hparts, hstart]
      · have hstart' : Regex.atLineStart prev (c :: s) = false := by simpa using hstart
        have hends : EndsInWord s := h.of_append (a := [c])
        have ih := gsubFrom_lineBody hrep (some c) s hends
        rw [Regex.gsubFrom_none (matchAt_lineBody_of_not hstart'), ih, hstart', dropHeads]
        -- at the end of the text it does not matter whether a line starts
        cases s with
        | nil => simp [dropHeads]
        | cons d s => simp [Regex.atLineStart]
termination_by _ s => s.length
decreasing_by
  · exact hrest
  · exact Nat.lt_succ_self _

/-! ## Both substitutions -/

theorem tailAhead_of_dropTails_nil {s : Str} (h : dropTails s = []) : tailAhead s = true := by
  cases s with
  | nil => rfl
  | cons c s =>
      cases hdrop : !isWord c && tailAhead s with
      | false => simp [dropTails, hdrop] at h
      | true =>
          rw [Bool.and_eq_true] at hdrop
          simp [tailAhead, hdrop]

theorem endsInWord_dropTails (s : Str) : EndsInWord (dropTails s) := by
  induction s with
  | nil =>
      intro c hc
      simp [dropTails] at hc
  | cons c s ih =>
      intro d hd
      cases hdrop : !isWord c && tailAhead s with
      | true => exact ih d (by simpa [dropTails, hdrop] using hd)
      | false =>
          rw [dropTails, hdrop] at hd
          cases htail : dropTails s with
          -- a kept character at the end is no non-word character
          | nil =>
              have hcd : c = d := by simpa [htail] using hd
              have hahead := tailAhead_of_dropTails_nil htail
              rw [← hcd]
              simpa [hahead] using hdrop
          | cons x t =>
              apply ih d
              simpa [htail, List.getLast?_cons_cons] using hd

theorem replacement_group (s : Str) (a : Regex.Attempt) :
    Regex.replacement "\\1".toList s a = a.captured.getD [] := by
  simp [Regex.replacement, Regex.expand, Regex.reference]

/-- The two substitutions of `super_chomp`, read from the left to the right. -/
theorem superChomp_eq (s : Str) : superChomp s = dropHeads true (dropTails s) := by
  have hends := endsInWord_dropTails s
  have hbody := gsubFrom_lineBody (replacement_group (dropTails s)) none (dropTails s) hends
  rw [superChomp, gsubStr_lineTail, Regex.gsubStr!]
  by_cases hany : (Regex.tokens lineBody (dropTails s)).any Regex.Token.isMatched = true
  · rw [if_pos hany, Option.getD_some, Regex.gsubStr_eq_gsubFrom, hbody]
    rfl
  · -- without a match there is nothing left: a text with a word character has one at its start
    rw [if_neg hany, Option.getD_none]
    by_cases hne : dropTails s = []
    · simp [hne, dropHeads]
    · rcases hends.dropWhile hne with ⟨w, l, hdrop⟩
      have hmatch := @matchAt_lineBody none _ _ _ rfl hdrop
      apply absurd _ hany
      rw [Regex.tokens, Regex.tokensFrom_some hmatch (by simp)]
      simp [Regex.Token.isMatched]

/-! ## Trimming -/

/-- A text from its first to its last word character. -/
def trimmed (s : Str) : Str :=
  (s.dropWhile fun c => !isWord c).rdropWhile fun c => !isWord c

/-- Every line break stands between two word characters. -/
def BreaksBetweenWords (s : Str) : Prop :=
  ∀ a b, s = a ++ '\n' :: b → a.getLast?.any isWord = true ∧ b.head?.any isWord = true

theorem tailAhead_append_nonword {r : Str} (hr : ∀ c ∈ r, isWord c = false) (s : Str) :
    tailAhead (s ++ r) = tailAhead s := by
  induction s with
  | nil =>
      induction r with
      | nil => rfl
      | cons c r ih =>
          have hc : isWord c = false := hr c (by simp)
          have hrest := ih fun x hx => hr x (by simp [hx])
          simp only [List.nil_append] at hrest ⊢
          simp [tailAhead, hc, hrest]
  | cons c s ih => simp [tailAhead, ih]

theorem dropTails_append_nonword {r : Str} (hr : ∀ c ∈ r, isWord c = false) (s : Str) :
    dropTails (s ++ r) = dropTails s := by
  induction s with
  | nil =>
      induction r with
      | nil => rfl
      | cons c r ih =>
          have hr' : ∀ x ∈ r, isWord x = false := fun x hx => hr x (by simp [hx])
          have hahead : tailAhead r = true := by simpa [tailAhead] using tailAhead_append_nonword hr' []
          have hrest := ih hr'
          simp only [List.nil_append] at hrest ⊢
          simp [dropTails, hr c (by simp), hahead, hrest]
  | cons c s ih => simp [dropTails, tailAhead_append_nonword hr, ih]

theorem dropTails_nonword_append {r : Str} (hr : ∀ c ∈ r, isWord c = false) (s : Str) :
    ∃ r', (∀ c ∈ r', isWord c = false) ∧ dropTails (r ++ s) = r' ++ dropTails s := by
  induction r with
  | nil => exact ⟨[], by simp, rfl⟩
  | cons c r ih =>
      rcases ih fun x hx => hr x (by simp [hx]) with ⟨r', hr', hdrop⟩
      have hc : isWord c = false := hr c (by simp)
      cases hahead : tailAhead (r ++ s) with
      | true => exact ⟨r', hr', by simp [dropTails, hc, hahead, hdrop]⟩
      | false =>
          refine ⟨c :: r', ?_, by simp [dropTails, hahead, hdrop]⟩
          intro x hx
          rcases List.mem_cons.1 hx with rfl | hx
          · exact hc
          · exact hr' x hx

/-- What surrounds the trimmed text is taken away in any case. -/
theorem superChomp_eq_trimmed (s : Str) :
    superChomp s = dropHeads true (dropTails (trimmed s)) := by
  have hfront : s.takeWhile (fun c => !isWord c) ++ s.dropWhile (fun c => !isWord c) = s :=
    List.takeWhile_append_dropWhile
  have hback : trimmed s ++ (s.dropWhile fun c => !isWord c).rtakeWhile (fun c => !isWord c) =
      s.dropWhile fun c => !isWord c :=
    List.rdropWhile_append_rtakeWhile
  have htails : ∀ c ∈ (s.dropWhile fun c => !isWord c).rtakeWhile fun c => !isWord c,
      isWord c = false := by
    intro c hc
    simpa using List.mem_rtakeWhile_imp hc
  rcases dropTails_nonword_append nonword_of_takeWhile (s.dropWhile fun c => !isWord c) with ⟨r, hr, hdrop⟩
  calc
    superChomp s = dropHeads true (dropTails s) := superChomp_eq s
    _ = dropHeads true (r ++ dropTails (s.dropWhile fun c => !isWord c)) := by rw [← hdrop, hfront]
    _ = dropHeads true (dropTails (s.dropWhile fun c => !isWord c)) := dropHeads_nonword hr _
    _ = dropHeads true (dropTails (trimmed s)) := by
      rw [← dropTails_append_nonword htails (trimmed s), hback]

theorem dropTails_sublist (s : Str) : (dropTails s).Sublist s := by
  induction s with
  | nil => exact List.Sublist.slnil
  | cons c s ih =>
      cases hdrop : !isWord c && tailAhead s with
      | true => simpa [dropTails, hdrop] using ih.cons c
      | false => simpa [dropTails, hdrop] using ih

theorem dropHeads_sublist (s : Str) : ∀ fresh, (dropHeads fresh s).Sublist s := by
  induction s with
  | nil =>
      intro fresh
      exact List.Sublist.slnil
  | cons c s ih =>
      intro fresh
      cases hdrop : fresh && !isWord c with
      | true => simpa [dropHeads, hdrop] using (ih true).cons c
      | false => simpa [dropHeads, hdrop] using ih (c == '\n')

theorem dropTails_cons_eq_self_iff {c : Char} {s : Str} :
    dropTails (c :: s) = c :: s ↔ (!isWord c && tailAhead s) = false ∧ dropTails s = s := by
  cases hdrop : !isWord c && tailAhead s with
  | false => simp [dropTails, hdrop]
  | true =>
      have hlen := (dropTails_sublist s).length_le
      constructor
      · intro h
        have hsame := congrArg List.length h
        simp only [dropTails, hdrop, if_true, List.length_cons] at hsame
        omega
      · rintro ⟨hkept, _⟩
        cases hkept

theorem dropHeads_cons_eq_self_iff {fresh : Bool} {c : Char} {s : Str} :
    dropHeads fresh (c :: s) = c :: s ↔
      (fresh && !isWord c) = false ∧ dropHeads (c == '\n') s = s := by
  cases hdrop : fresh && !isWord c with
  | false => simp [dropHeads, hdrop]
  | true =>
      have hlen := (dropHeads_sublist s true).length_le
      constructor
      · intro h
        have hsame := congrArg List.length h
        simp only [dropHeads, hdrop, if_true, List.length_cons] at hsame
        omega
      · rintro ⟨hkept, _⟩
        cases hkept

theorem dropTails_eq_of_append {a b : Str} (h : dropTails (a ++ b) = a ++ b) : dropTails b = b := by
  induction a with
  | nil => exact h
  | cons c a ih => exact ih (dropTails_cons_eq_self_iff.1 h).2

theorem dropHeads_eq_of_append {a b : Str} :
    ∀ {fresh : Bool}, dropHeads fresh (a ++ b) = a ++ b → ∃ fresh', dropHeads fresh' b = b := by
  induction a with
  | nil =>
      intro fresh h
      exact ⟨fresh, h⟩
  | cons c a ih =>
      intro fresh h
      exact ih (dropHeads_cons_eq_self_iff.1 h).2

/-- The non-word characters ahead go on to a line break or to the end. -/
theorem exists_of_tailAhead {s : Str} (h : tailAhead s = true) :
    ∃ m, (∀ c ∈ m, isWord c = false) ∧ (s = m ∨ ∃ b, s = m ++ '\n' :: b) := by
  induction s with
  | nil => exact ⟨[], by simp, Or.inl rfl⟩
  | cons c s ih =>
      have hparts : isWord c = false ∧ (c = '\n' ∨ tailAhead s = true) := by
        simpa [tailAhead] using h
      rcases hparts with ⟨hc, rfl | hahead⟩
      · exact ⟨[], by simp, Or.inr ⟨s, rfl⟩⟩
      · rcases ih hahead with ⟨m, hm, hs⟩
        refine ⟨c :: m, ?_, ?_⟩
        · intro x hx
          rcases List.mem_cons.1 hx with rfl | hx
          · exact hc
          · exact hm x hx
        · rcases hs with rfl | ⟨b, rfl⟩
          · exact Or.inl rfl
          · exact Or.inr ⟨b, rfl⟩

theorem getLast?_nonword {c : Char} {m : Str} (hc : isWord c = false)
    (hm : ∀ x ∈ m, isWord x = false) (p : Str) :
    ∃ x, (p ++ c :: m).getLast? = some x ∧ isWord x = false := by
  refine ⟨(c :: m).getLast (by simp), ?_, ?_⟩
  · rw [List.getLast?_append_of_ne_nil _ (by simp), List.getLast?_eq_some_getLast (by simp)]
  · rcases List.mem_cons.1 (List.getLast_mem (List.cons_ne_nil c m)) with heq | hmem
    · rw [heq, hc]
    · exact hm _ hmem

section Trimmed

variable {u : Str} (hstart : ∀ c, u.head? = some c → isWord c = true) (hend : EndsInWord u)

include hstart hend

/-- No line break behind a non-word character. -/
theorem dropTails_eq_self_iff :
    dropTails u = u ↔ ∀ a b, u = a ++ '\n' :: b → a.getLast?.any isWord = true := by
  constructor
  · intro h a b hu
    cases a using List.reverseRecOn with
    | nil =>
        have hfirst := hstart '\n' (by simp [hu])
        simp [isWord_newline] at hfirst
    | append_singleton a c =>
        have hu' : u = a ++ c :: '\n' :: b := by simpa using hu
        rw [hu'] at h
        have hkept := (dropTails_cons_eq_self_iff.1 (dropTails_eq_of_append h)).1
        have hahead : tailAhead ('\n' :: b) = true := by simp [tailAhead, isWord_newline]
        simpa [hahead] using hkept
  · intro h
    have hsuffix : ∀ v p : Str, u = p ++ v → dropTails v = v := by
      intro v
      induction v with
      | nil => simp [dropTails]
      | cons c v ih =>
          intro p hu
          rw [dropTails_cons_eq_self_iff]
          refine ⟨?_, ih (p ++ [c]) (by simp [hu])⟩
          cases hdrop : !isWord c && tailAhead v with
          | false => rfl
          | true =>
              have hparts : isWord c = false ∧ tailAhead v = true := by simpa using hdrop
              rcases exists_of_tailAhead hparts.2 with ⟨m, hm, hv⟩
              rcases getLast?_nonword hparts.1 hm p with ⟨x, hx, hxword⟩
              rcases hv with rfl | ⟨b, rfl⟩
              -- the text would end in a non-word character
              · rw [← hu] at hx
                simp [hend x hx] at hxword
              · have hlast := h (p ++ c :: m) b (by simp [hu])
                simp [hx, hxword] at hlast
    exact hsuffix u [] rfl

/-- No line break in front of a non-word character. -/
theorem dropHeads_eq_self_iff :
    dropHeads true u = u ↔ ∀ a b, u = a ++ '\n' :: b → b.head?.any isWord = true := by
  constructor
  · intro h a b hu
    rw [hu] at h
    rcases dropHeads_eq_of_append h with ⟨fresh, hfresh⟩
    have hline : dropHeads true b = b := (dropHeads_cons_eq_self_iff.1 hfresh).2
    cases b with
    | nil =>
        have hlast := hend '\n' (by simp [hu])
        simp [isWord_newline] at hlast
    | cons d b => simpa using (dropHeads_cons_eq_self_iff.1 hline).1
  · intro h
    have hsuffix : ∀ (v p : Str) (fresh : Bool), u = p ++ v →
        (fresh = true → ∀ c, v.head? = some c → isWord c = true) → dropHeads fresh v = v := by
      intro v
      induction v with
      | nil => simp [dropHeads]
      | cons c v ih =>
          intro p fresh hu hfresh
          rw [dropHeads_cons_eq_self_iff]
          constructor
          · cases fresh with
            | false => rfl
            | true => simp [hfresh rfl c rfl]
          · apply ih (p ++ [c]) _ (by simp [hu])
            intro hnl d hd
            have hc : c = '\n' := by simpa using hnl
            have hhead := h p v (by rw [hu, hc])
            simpa [hd] using hhead
    exact hsuffix u [] true rfl (fun _ => hstart)

/-- Nothing is lost between the first and the last word character. -/
theorem squeezed_eq_self_iff :
    dropHeads true (dropTails u) = u ↔ BreaksBetweenWords u := by
  have hparts : dropHeads true (dropTails u) = u ↔ dropTails u = u ∧ dropHeads true u = u := by
    constructor
    · intro h
      -- what the first substitution loses the second one does not bring back
      have hle := (dropHeads_sublist (dropTails u) true).length_le
      rw [h] at hle
      have htails : dropTails u = u := (dropTails_sublist u).eq_of_length_le hle
      refine ⟨htails, ?_⟩
      rwa [htails] at h
    · rintro ⟨htails, hheads⟩
      rw [htails, hheads]
  rw [hparts, dropTails_eq_self_iff hstart hend, dropHeads_eq_self_iff hstart hend]
  constructor
  · rintro ⟨htails, hheads⟩ a b hu
    exact ⟨htails a b hu, hheads a b hu⟩
  · intro h
    exact ⟨fun a b hu => (h a b hu).1, fun a b hu => (h a b hu).2⟩

end Trimmed

theorem isWord_head_trimmed (s : Str) : ∀ c, (trimmed s).head? = some c → isWord c = true := by
  intro c hc
  have hprefix : trimmed s <+: s.dropWhile fun c => !isWord c := List.rdropWhile_prefix _ _
  cases ht : trimmed s with
  | nil => simp [ht] at hc
  | cons d t =>
      rcases hprefix with ⟨rest, hrest⟩
      have hcd : d = c := by simpa [ht] using hc
      rw [ht, List.cons_append] at hrest
      rw [← hcd]
      exact isWord_of_dropWhile hrest.symm

theorem endsInWord_trimmed (s : Str) : EndsInWord (trimmed s) := by
  intro c hc
  have hne : trimmed s ≠ [] := by
    intro hnil
    simp [hnil] at hc
  have hlast := List.rdropWhile_last_not (fun c => !isWord c) (s.dropWhile fun c => !isWord c) hne
  have hc' : (trimmed s).getLast hne = c := by
    rw [List.getLast?_eq_some_getLast hne] at hc
    simpa using hc
  rw [← hc']
  simpa [trimmed] using hlast

/-- Both ends of a text are trimmed and nothing else changes, if and only if every line break between
its first and its last word character has a word character on both sides. -/
theorem superChomp_eq_trimmed_iff (s : Str) :
    superChomp s = trimmed s ↔ BreaksBetweenWords (trimmed s) := by
  rw [superChomp_eq_trimmed]
  exact squeezed_eq_self_iff (isWord_head_trimmed s) (endsInWord_trimmed s)

/-- The blank at the end of an inner line is lost. -/
theorem inner_line_trimmed :
    trimmed " a \nb ".toList = "a \nb".toList ∧ superChomp " a \nb ".toList = "a\nb".toList := by
  decide

/-! ## Line by line -/

/-- Lines, each behind a line break. -/
def below (lines : List Str) : Str :=
  lines.flatMap fun line => '\n' :: line

/-- What is left of a text, line by line. -/
def chompedLines (lines : List Str) : List Str :=
  (lines.map trimmed).filter fun line => line ≠ []

theorem intercalate_eq_below (line : Str) (lines : List Str) :
    ['\n'].intercalate (line :: lines) = line ++ below lines := by
  induction lines generalizing line with
  | nil => simp [below]
  | cons next lines ih =>
      rw [List.intercalate_cons_cons, ih]
      simp [below]

theorem mem_of_mem_trimmed {s : Str} {c : Char} (h : c ∈ trimmed s) : c ∈ s :=
  ((List.rdropWhile_prefix _ _).isInfix.trans (List.dropWhile_suffix _).isInfix).subset h

section Line

variable {line : Str} (hline : '\n' ∉ line)

include hline

/-- What stands in front of a line end is decided by its line. -/
theorem tailAhead_line (lines : List Str) :
    tailAhead (line ++ below lines) = line.all fun c => !isWord c := by
  induction line with
  | nil => cases lines <;> simp [below, tailAhead, isWord_newline]
  | cons c line ih =>
      have hc : (c == '\n') = false := by
        have hne : c ≠ '\n' := fun hne => hline (by simp [hne])
        simpa using hne
      have hrest := ih fun hmem => hline (by simp [hmem])
      simp [tailAhead, hc, hrest]

theorem dropTails_line (lines : List Str) :
    dropTails (line ++ below lines) = dropTails line ++ dropTails (below lines) := by
  induction line with
  | nil => simp [dropTails]
  | cons c line ih =>
      have hbreak : '\n' ∉ line := fun hmem => hline (by simp [hmem])
      have hrest := ih hbreak
      have hahead := tailAhead_line hbreak lines
      have halone := tailAhead_line hbreak []
      have hnil : line ++ below [] = line := by simp [below]
      rw [hnil] at halone
      rw [List.cons_append, dropTails, dropTails, hahead, halone, hrest]
      split <;> rfl

theorem trimmed_line : trimmed line = dropHeads true (dropTails line) := by
  have hbreaks : BreaksBetweenWords (trimmed line) := by
    intro a b h
    exact absurd (mem_of_mem_trimmed (by simp [h])) hline
  rw [← superChomp_eq, superChomp_eq_trimmed,
    (squeezed_eq_self_iff (isWord_head_trimmed line) (endsInWord_trimmed line)).2 hbreaks]

/-- A line that is not blank ends in a word character, so what follows it stands behind a word. -/
theorem dropHeads_dropTails_line (rest : Str) :
    dropHeads true (dropTails line ++ rest) =
      if trimmed line = [] then dropHeads true rest else trimmed line ++ dropHeads false rest := by
  have hends := endsInWord_dropTails line
  have hbreak : ∀ c ∈ dropTails line, (c != '\n') = true := by
    intro c hc
    have hmem := (dropTails_sublist line).subset hc
    have hne : c ≠ '\n' := by
      rintro rfl
      exact hline hmem
    simpa using hne
  rw [trimmed_line hline]
  by_cases hnil : dropTails line = []
  · simp [hnil, dropHeads]
  · rcases hends.dropWhile hnil with ⟨w, l, hdrop⟩
    have hw := isWord_of_dropWhile hdrop
    have hparts : (dropTails line).takeWhile (fun c => !isWord c) ++ w :: l = dropTails line := by
      rw [← hdrop, List.takeWhile_append_dropWhile]
    have hl : ∀ c ∈ l, (c != '\n') = true := fun c hc => hbreak c (by rw [← hparts]; simp [hc])
    have hword : ∀ more, dropHeads true (dropTails line ++ more) = w :: (l ++ dropHeads false more) := by
      intro more
      rw [← hparts, List.append_assoc, dropHeads_nonword nonword_of_takeWhile, List.cons_append,
        dropHeads]
      have hnewline : (w == '\n') = false := by simpa using ne_newline hw
      rw [hnewline, dropHeads_line hl]
      simp [hw]
    have halone := hword []
    rw [List.append_nil] at halone
    rw [hword, halone]
    simp [dropHeads]

omit hline in
theorem blank_line : (line.all fun c => !isWord c) = true ↔ trimmed line = [] := by
  constructor
  · intro hall
    rw [trimmed, List.dropWhile_eq_nil_iff.2 (by simpa using hall)]
    rfl
  · intro hnil
    have hdropped := List.rdropWhile_eq_nil_iff.1 hnil
    cases hrest : line.dropWhile fun c => !isWord c with
    | nil => simpa using List.dropWhile_eq_nil_iff.1 hrest
    | cons w l =>
        have hnot := hdropped w (by simp [hrest])
        simp [isWord_of_dropWhile hrest] at hnot

omit hline in
theorem dropTails_blank (hblank : trimmed line = []) : dropTails line = [] := by
  have hall := blank_line.2 hblank
  have hdrop := @dropTails_append_nonword line (by simpa using hall) []
  simpa [dropTails] using hdrop

/-- A line break is dropped with the blank line behind it. -/
theorem dropTails_below (lines : List Str) :
    dropTails (below (line :: lines)) =
      if trimmed line = [] then dropTails (line ++ below lines)
      else '\n' :: dropTails (line ++ below lines) := by
  have hcons : below (line :: lines) = '\n' :: (line ++ below lines) := by simp [below]
  rw [hcons, dropTails, tailAhead_line hline, isWord_newline]
  simp only [Bool.not_false, Bool.true_and, blank_line]

end Line

theorem dropHeads_below {lines : List Str} (h : ∀ line ∈ lines, '\n' ∉ line) :
    dropHeads false (dropTails (below lines)) = below (chompedLines lines) := by
  induction lines with
  | nil => rfl
  | cons line lines ih =>
      have hline := h line (by simp)
      have hrest := ih fun l hl => h l (by simp [hl])
      rw [dropTails_below hline, dropTails_line hline]
      by_cases hblank : trimmed line = []
      · rw [if_pos hblank, dropTails_blank hblank, List.nil_append, hrest]
        simp [chompedLines, hblank]
      · rw [if_neg hblank, dropHeads]
        have hnewline : ('\n' == '\n') = true := rfl
        rw [hnewline, dropHeads_dropTails_line hline, if_neg hblank, hrest]
        simp [chompedLines, hblank, below]

/-- The text that starts with `line`. -/
theorem dropHeads_lines {lines : List Str} (h : ∀ line ∈ lines, '\n' ∉ line) {line : Str}
    (hline : '\n' ∉ line) :
    dropHeads true (dropTails (line ++ below lines)) =
      ['\n'].intercalate (chompedLines (line :: lines)) := by
  induction lines generalizing line with
  | nil =>
      rw [dropTails_line hline, dropHeads_dropTails_line hline]
      by_cases hblank : trimmed line = []
      · simp [hblank, chompedLines, below, dropTails, dropHeads]
      · simp [hblank, chompedLines, below, dropTails, dropHeads]
  | cons next lines ih =>
      have hbelow := dropHeads_below h
      rw [dropTails_line hline, dropHeads_dropTails_line hline]
      by_cases hblank : trimmed line = []
      · -- the next line is the first one then
        have hnext : '\n' ∉ next := h next (by simp)
        have hrest := ih (fun l hl => h l (by simp [hl])) hnext
        have hskip : chompedLines (line :: next :: lines) = chompedLines (next :: lines) := by
          simp [chompedLines, hblank]
        rw [if_pos hblank, dropTails_below hnext, hskip, ← hrest]
        split
        · rfl
        · simp [dropHeads, isWord_newline]
      · have hfirst : chompedLines (line :: next :: lines) =
            trimmed line :: chompedLines (next :: lines) := by
          simp [chompedLines, hblank]
        rw [if_neg hblank, hbelow, hfirst, intercalate_eq_below]

/-- `super_chomp` trims every line, and drops the blank ones. -/
theorem superChomp_eq_lines (s : Str) :
    superChomp s = ['\n'].intercalate (chompedLines (s.splitOn '\n')) := by
  have hbreak := @File.sep_not_mem_of_mem_splitOn '\n' s
  have hwhole := @List.intercalate_splitOn _ s _ _ '\n'
  cases hlines : s.splitOn '\n' with
  | nil => exact absurd hlines (List.splitOn_ne_nil '\n' s)
  | cons line lines =>
      rw [hlines] at hbreak hwhole
      rw [intercalate_eq_below] at hwhole
      rw [superChomp_eq, ← hwhole]
      exact dropHeads_lines (fun l hl => hbreak l (by simp [hl])) (hbreak line (by simp))

theorem trimmed_trimmed (s : Str) : trimmed (trimmed s) = trimmed s := by
  have hfront : (trimmed s).dropWhile (fun c => !isWord c) = trimmed s := by
    cases ht : trimmed s with
    | nil => rfl
    | cons c t =>
        have hc := isWord_head_trimmed s c (by rw [ht]; rfl)
        simp [hc]
  rw [trimmed, hfront, List.rdropWhile_eq_self_iff]
  intro hne
  have hlast := endsInWord_trimmed s _ (List.getLast?_eq_some_getLast hne)
  simp [hlast]

theorem of_mem_chompedLines {lines : List Str} {l : Str} (h : l ∈ chompedLines lines) :
    ∃ line ∈ lines, l = trimmed line ∧ l ≠ [] := by
  rcases List.mem_filter.1 h with ⟨hmem, hne⟩
  rcases List.mem_map.1 hmem with ⟨line, hline, rfl⟩
  exact ⟨line, hline, rfl, by simpa using hne⟩

/-- What is left of the lines is trimmed already. -/
theorem chompedLines_again (lines : List Str) :
    chompedLines (chompedLines lines) = chompedLines lines := by
  have hself : (chompedLines lines).map trimmed = chompedLines lines := by
    refine (List.map_congr_left fun l hl => ?_).trans (List.map_id _)
    rcases of_mem_chompedLines hl with ⟨line, _, rfl, _⟩
    exact trimmed_trimmed line
  conv_lhs => rw [chompedLines, hself]
  refine List.filter_eq_self.2 fun l hl => ?_
  rcases of_mem_chompedLines hl with ⟨line, _, _, hne⟩
  simpa using hne

/-- `super_chomp` trims every line and drops the blank ones, and does nothing when it is called
again. -/
theorem superChomp_lines (s : Str) :
    superChomp s = ['\n'].intercalate (chompedLines (s.splitOn '\n')) ∧
      superChomp (superChomp s) = superChomp s := by
  have hlines := superChomp_eq_lines s
  refine ⟨hlines, ?_⟩
  by_cases hnil : chompedLines (s.splitOn '\n') = []
  · rw [hlines, hnil]
    rfl
  · have hbreak : ∀ l ∈ chompedLines (s.splitOn '\n'), '\n' ∉ l := by
      intro l hl hmem
      rcases of_mem_chompedLines hl with ⟨line, hline, rfl, _⟩
      exact File.sep_not_mem_of_mem_splitOn line hline (mem_of_mem_trimmed hmem)
    have hagain := superChomp_eq_lines (superChomp s)
    rw [hlines, List.splitOn_intercalate '\n' hbreak hnil, chompedLines_again] at hagain
    rw [hlines, hagain]

end Yikes
