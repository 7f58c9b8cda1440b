import Yikes.Ruby.Text

/-!
# Html — pages as text, and what a reader makes of them

A page is written as a list of tags and texts (`render`).  A reader takes what stands between `<` and
`>` for a tag, and everything up to the next tag for the text behind it (`read`).  It finds the tags and
texts that were written, whatever they say, as long as no tag has a `>` in it and no text a `<`
(`read_render`).

In texts and values a reader takes the entities for the characters they stand for (`unescape`).  What
has nothing but `Harmless` characters fits into a text and between the quotation marks of an attribute.
-/

namespace Ruby
namespace Html

inductive Token
  | tag (inner : Str)
  | text (s : Str)
  deriving DecidableEq, Repr

def Token.render : Token → Str
  | .tag inner => '<' :: (inner ++ ['>'])
  | .text s => s

def render (page : List Token) : Str :=
  page.flatMap Token.render

/-! ## Reading -/

/-- A tag, and the text from there to the next one. -/
structure Tag where
  inner : Str
  behind : Str
  deriving DecidableEq, Repr

/-- The text in front of the first tag, and the tags.  `inside` is what was read of a tag that is not
closed yet, the last character first. -/
def readFrom : Option Str → Str → Str × List Tag
  | none, [] => ([], [])
  | some inside, [] => ('<' :: inside.reverse, [])
  | none, c :: s =>
      if c = '<' then readFrom (some []) s
      else
        let r := readFrom none s
        (c :: r.1, r.2)
  | some inside, c :: s =>
      if c = '>' then
        let r := readFrom none s
        ([], { inner := inside.reverse, behind := r.1 } :: r.2)
      else readFrom (some (c :: inside)) s

def read (s : Str) : Str × List Tag :=
  readFrom none s

/-- The tags of a page that is not written yet. -/
def gather : List Token → Str × List Tag
  | [] => ([], [])
  | .text s :: page =>
      let r := gather page
      (s ++ r.1, r.2)
  | .tag inner :: page =>
      let r := gather page
      ([], { inner := inner, behind := r.1 } :: r.2)

/-- A tag or text that a reader does not take for anything else. -/
def Token.Fits : Token → Prop
  | .tag inner => '>' ∉ inner
  | .text s => '<' ∉ s

instance : DecidablePred Token.Fits
  | .tag inner => inferInstanceAs (Decidable ('>' ∉ inner))
  | .text s => inferInstanceAs (Decidable ('<' ∉ s))

theorem readFrom_text {s : Str} (h : '<' ∉ s) (rest : Str) :
    readFrom none (s ++ rest) = (s ++ (readFrom none rest).1, (readFrom none rest).2) := by
  induction s with
  | nil => rfl
  | cons c s ih =>
      have hc : c ≠ '<' := fun hc => h (by simp [hc])
      have hrest := ih fun hmem => h (by simp [hmem])
      rw [List.cons_append, readFrom, if_neg hc, hrest]
      rfl

theorem readFrom_tag {inner : Str} (h : '>' ∉ inner) (rest : Str) :
    ∀ inside : Str, readFrom (some inside) (inner ++ '>' :: rest) =
      ([], { inner := inside.reverse ++ inner, behind := (readFrom none rest).1 } ::
        (readFrom none rest).2) := by
  induction inner with
  | nil =>
      intro inside
      simp [readFrom]
  | cons c inner ih =>
      intro inside
      have hc : c ≠ '>' := fun hc => h (by simp [hc])
      have hrest := ih (fun hmem => h (by simp [hmem])) (c :: inside)
      rw [List.cons_append, readFrom, if_neg hc, hrest]
      simp

/-- A reader finds what was written. -/
theorem read_render {page : List Token} (h : ∀ token ∈ page, token.Fits) :
    read (render page) = gather page := by
  unfold read
  induction page with
  | nil => rfl
  | cons token page ih =>
      have hrest := ih fun t ht => h t (by simp [ht])
      have htoken := h token (by simp)
      rw [render, List.flatMap_cons]
      cases token with
      | text s =>
          rw [Token.render, readFrom_text htoken]
          simp only [gather, ← hrest, render]
      | tag inner =>
          have hcons : (Token.tag inner).render ++ page.flatMap Token.render =
              '<' :: (inner ++ '>' :: page.flatMap Token.render) := by simp [Token.render]
          rw [hcons, readFrom, if_pos rfl, readFrom_tag htoken]
          simp only [gather, ← hrest, render, List.reverse_nil, List.nil_append]

/-! ## Entities -/

def unescape : Str → Str
  | '&' :: 'a' :: 'm' :: 'p' :: ';' :: s => '&' :: unescape s
  | '&' :: 'l' :: 't' :: ';' :: s => '<' :: unescape s
  | '&' :: 'g' :: 't' :: ';' :: s => '>' :: unescape s
  | '&' :: 'q' :: 'u' :: 'o' :: 't' :: ';' :: s => '"' :: unescape s
  | '&' :: '#' :: '3' :: '9' :: ';' :: s => '\x27' :: unescape s
  | c :: s => c :: unescape s
  | [] => []

/-- A character that can stand in a text and between quotation marks. -/
def Harmless (c : Char) : Prop :=
  c ≠ '<' ∧ c ≠ '>' ∧ c ≠ '"'

instance (c : Char) : Decidable (Harmless c) :=
  inferInstanceAs (Decidable (_ ∧ _))

theorem harmless_of_all {s : Str} (h : s.all (fun c => decide (Harmless c)) = true) :
    ∀ c ∈ s, Harmless c :=
  fun c hc => of_decide_eq_true (List.all_eq_true.1 h c hc)

theorem unescape_cons {c : Char} (hc : c ≠ '&') (s : Str) : unescape (c :: s) = c :: unescape s := by
  rw [unescape] <;> simp [hc]

/-- Without an entity there is nothing to undo. -/
theorem unescape_of_no_entity {s : Str} (h : '&' ∉ s) : unescape s = s := by
  induction s with
  | nil => rfl
  | cons c s ih =>
      have hc : c ≠ '&' := fun hc => h (by simp [hc])
      rw [unescape_cons hc, ih fun hmem => h (by simp [hmem])]

/-! ## Elements and attributes -/

/-- The name of the element that a tag opens or closes. -/
def elementOf (inner : Str) : Str :=
  inner.takeWhile (· ≠ ' ')

def Token.element : Token → Option Str
  | .tag inner => some (elementOf inner)
  | .text _ => none

namespace Tag

def element (tag : Tag) : Str :=
  elementOf tag.inner

/-- What stands in quotation marks, each with what stands in front of it. -/
def pairs : List Str → List (Str × Str)
  | front :: value :: rest => (front, value) :: pairs rest
  | _ => []

def valueOf (key : Str) (tag : Tag) : Option Str :=
  (pairs (tag.inner.splitOn '"')).findSome? fun p =>
    if (key ++ ['=']).isSuffixOf p.1 then some (unescape p.2) else none

end Tag

/-- The tags of the elements with a name. -/
def named (name : Str) (tags : List Tag) : List Tag :=
  tags.filter fun tag => tag.element = name

/-- The links of a page: where they lead, and what they say. -/
def links (tags : List Tag) : List (Str × Str) :=
  (named "a".toList tags).map fun tag => ((tag.valueOf "href".toList).getD [], unescape tag.behind)

/-- Where the images of a page are. -/
def images (tags : List Tag) : List Str :=
  (named "img".toList tags).map fun tag => (tag.valueOf "src".toList).getD []

theorem element_gather (page : List Token) :
    (gather page).2.map Tag.element = page.filterMap Token.element := by
  induction page with
  | nil => rfl
  | cons token page ih =>
      cases token with
      | text s => exact ih
      | tag inner =>
          have hfirst : (Token.tag inner :: page).filterMap Token.element =
              elementOf inner :: page.filterMap Token.element := rfl
          rw [hfirst, ← ih]
          rfl

/-- Tokens without an element of the name have nothing to do with those behind them. -/
theorem named_append {name : Str} {front : List Token}
    (h : ∀ token ∈ front, token.element ≠ some name) (page : List Token) :
    named name (gather (front ++ page)).2 = named name (gather page).2 := by
  induction front with
  | nil => rfl
  | cons token front ih =>
      have hrest := ih fun t ht => h t (by simp [ht])
      have htoken := h token (by simp)
      cases token with
      | text s => exact hrest
      | tag inner =>
          have hne : elementOf inner ≠ name := fun heq => htoken (congrArg some heq)
          simpa [gather, named, Tag.element, hne] using hrest

end Html
end Ruby
