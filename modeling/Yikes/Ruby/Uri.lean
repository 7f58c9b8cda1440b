import Yikes.Ruby.Text

/-!
# Uri — `URI.escape`, and how a server reads a URL

A character stands for a byte, as in the strings of Ruby 1.8.
-/

namespace Ruby
namespace Uri

/-- A reserved or unreserved character: `URI.escape` leaves it alone. -/
def isSafe (c : Char) : Bool :=
  c.isAlphanum || c ∈ ";/?:@&=+$,[]-_.!~*'()".toList

def hexDigit (n : Nat) : Char :=
  if n < 10 then Char.ofNat ('0'.toNat + n) else Char.ofNat ('A'.toNat + (n - 10))

def hexValue (c : Char) : Option Nat :=
  if c.isDigit then some (c.toNat - '0'.toNat)
  else if 'a' ≤ c ∧ c ≤ 'f' then some (c.toNat - 'a'.toNat + 10)
  else if 'A' ≤ c ∧ c ≤ 'F' then some (c.toNat - 'A'.toNat + 10)
  else none

/-- `URI.escape`. -/
def escape (s : Str) : Str :=
  s.flatMap fun c => if isSafe c then [c] else ['%', hexDigit (c.toNat / 16), hexDigit (c.toNat % 16)]

/-- Percent-decoding. -/
def unescape : Str → Str
  | '%' :: a :: b :: s =>
      match hexValue a, hexValue b with
      | some high, some low => Char.ofNat (16 * high + low) :: unescape s
      | _, _ => '%' :: unescape (a :: b :: s)
  | c :: s => c :: unescape s
  | [] => []

/-- What a server gets of an `http` URL: the path, without the query. -/
def requestPath (url : Str) : Str :=
  ((url.drop "http://".length).dropWhile (· ≠ '/')).takeWhile (· ≠ '?')

/-- The decoded segments of a path. -/
def segments (path : Str) : List Str :=
  ((path.splitOn '/').drop 1).map unescape

theorem escape_of_safe {s : Str} (h : ∀ c ∈ s, isSafe c = true) : escape s = s := by
  induction s with
  | nil => rfl
  | cons c s ih =>
      have hc := h c (by simp)
      have hs := ih (fun x hx => h x (by simp [hx]))
      simpa [escape, hc] using hs

theorem escape_append (a b : Str) : escape (a ++ b) = escape a ++ escape b := by
  simp [escape]

theorem isSafe_of_digit {c : Char} (h : c.isDigit = true) : isSafe c = true := by
  simp [isSafe, Char.isAlphanum, h]

theorem requestPath_append {authority path : Str} (hauth : '/' ∉ authority) :
    requestPath ("http://".toList ++ authority ++ '/' :: path) =
      '/' :: path.takeWhile (· ≠ '?') := by
  have hdrop : ("http://".toList ++ authority ++ '/' :: path).drop "http://".length =
      authority ++ '/' :: path := by
    rw [List.append_assoc]
    exact List.drop_left
  have hskip : (authority ++ '/' :: path).dropWhile (· ≠ '/') = '/' :: path := by
    rw [List.dropWhile_append_of_pos]
    · simp
    · intro c hc
      have hne : c ≠ '/' := by
        rintro rfl
        exact hauth hc
      simpa using hne
  rw [requestPath, hdrop, hskip]
  simp

theorem segments_cons {name : Str} (hname : '/' ∉ name) (rest : Str) :
    segments ('/' :: (name ++ '/' :: rest)) = unescape name :: (rest.splitOn '/').map unescape := by
  have hroot := List.splitOn_append_cons_self (a := '/') [] (name ++ '/' :: rest)
  have hsplit : (name ++ '/' :: rest).splitOn '/' = name :: rest.splitOn '/' := by
    rw [List.splitOn_append_cons_self, List.splitOn_eq_singleton hname]
    rfl
  rw [List.nil_append, hsplit] at hroot
  simp [segments, hroot]

theorem unescape_of_no_percent {s : Str} (h : '%' ∉ s) : unescape s = s := by
  induction s with
  | nil => rfl
  | cons c s ih =>
      have hc : c ≠ '%' := by
        rintro rfl
        simp at h
      have hs : unescape s = s := ih (fun hmem => h (by simp [hmem]))
      unfold unescape
      split
      · next heq => cases heq; simp at hc
      · next heq => cases heq; rw [hs]
      · next heq => cases heq

end Uri
end Ruby
