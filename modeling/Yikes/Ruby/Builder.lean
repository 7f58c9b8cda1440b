import Yikes.Ruby.Text

/-!
# Builder — XML documents as `XmlMarkup` emits them

`xml.tag(attributes) { .. }` emits one element, whose children are what the block emits.  The text form
of a document is left to the library: a document is the tree of its elements here.
-/

namespace Ruby

inductive Xml
  | text (s : Str)
  | element (name : Str) (attributes : List (Str × Str)) (children : List Xml)
  deriving Repr

namespace Xml

/-- `xml.tag "text"` -/
def tag (name content : Str) : Xml :=
  .element name [] [.text content]

/-- `xml.tag { .. }` -/
def block (name : Str) (children : List Xml) : Xml :=
  .element name [] children

mutual

/-- The elements of the given name, in the order of the document. -/
def named (name : Str) : Xml → List Xml
  | .text _ => []
  | .element tag attributes children =>
      if tag = name then .element tag attributes children :: namedIn name children
      else namedIn name children

def namedIn (name : Str) : List Xml → List Xml
  | [] => []
  | x :: xs => named name x ++ namedIn name xs

end

/-- Of blocks that each emit one element of a name, the elements are those, one for each. -/
theorem namedIn_map {α : Type*} {name : Str} {f : α → Xml} (h : ∀ x, named name (f x) = [f x])
    (xs : List α) : namedIn name (xs.map f) = xs.map f := by
  induction xs with
  | nil => simp [namedIn]
  | cons x xs ih => simp [namedIn, h, ih]

end Xml

end Ruby
