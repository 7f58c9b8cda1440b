import Yikes.Lib.Platform
import Yikes.Properties.Chomp

/-!
# Hostname — the name that the server is advertised by

`Platform.hostname` is to cut the domain off what the command `hostname` prints, and trims the rest.
Its pattern asks for a dot at the start of the line, so it never matches a name that starts with a
label, and the whole name comes back (`hostname_line`).
-/

namespace Yikes

open Ruby

/-! ## Host names -/

/-- One part of a host name: letters, digits and inner hyphens. -/
structure Label where
  text : Str
  chars : ∀ c ∈ text, c.isAlphanum = true ∨ c = '-'
  first : text.head?.any Char.isAlphanum = true
  last : text.getLast?.any Char.isAlphanum = true

/-- A host name with its domain. -/
def hostName : Label → List Label → Str
  | label, [] => label.text
  | label, next :: labels => label.text ++ '.' :: hostName next labels

namespace Label

theorem isWord_of_alphanum {c : Char} (hc : c.isAlphanum = true) : isWord c = true := by
  simp [isWord, hc]

theorem head?_hostName (label : Label) (labels : List Label) :
    ∃ c, (hostName label labels).head? = some c ∧ c.isAlphanum = true := by
  have hfirst : ∃ c, label.text.head? = some c ∧ c.isAlphanum = true := by
    simpa [Option.any_eq_true] using label.first
  rcases hfirst with ⟨c, hhead, hc⟩
  refine ⟨c, ?_, hc⟩
  cases labels with
  | nil => exact hhead
  | cons next labels => rw [hostName, List.head?_append, hhead, Option.some_or]

theorem getLast?_hostName (label : Label) (labels : List Label) :
    ∃ c, (hostName label labels).getLast? = some c ∧ c.isAlphanum = true := by
  induction labels generalizing label with
  | nil => simpa [hostName, Option.any_eq_true] using label.last
  | cons next labels ih =>
      rcases ih next with ⟨c, hlast, hc⟩
      refine ⟨c, ?_, hc⟩
      rw [hostName, List.getLast?_append, List.getLast?_cons, hlast]
      rfl

theorem not_mem_hostName (label : Label) (labels : List Label) : '\n' ∉ hostName label labels := by
  have htext : ∀ label : Label, '\n' ∉ label.text := by
    intro label hmem
    rcases label.chars _ hmem with hc | hc
    · simp at hc
    · simp at hc
  induction labels generalizing label with
  | nil => exact htext label
  | cons next labels ih => simp [hostName, htext label, ih next]

/-- The name is the label alone only without a domain. -/
theorem hostName_eq_text_iff (label : Label) (labels : List Label) :
    hostName label labels = label.text ↔ labels = [] := by
  cases labels with
  | nil => simp [hostName]
  | cons next labels =>
      have hlong : hostName label (next :: labels) ≠ label.text := by
        intro h
        have hlen := congrArg List.length h
        simp [hostName] at hlen
      simp [hlong]

end Label

/-! ## The advertised name -/

namespace Platform

/-- The domain pattern matches nowhere in a line that starts with a label. -/
theorem matchAt_domain_none {c : Char} {s : Str} (hc : c ≠ '.') (hs : '\n' ∉ c :: s) {a b : Str}
    (hab : a ++ b = c :: s ++ ['\n']) : Regex.matchAt domain (Regex.behind none a) b = none := by
  cases a using List.reverseRecOn with
  | nil =>
      have hb : b = c :: (s ++ ['\n']) := by simpa using hab
      have hcls : (c == '.') = false := by simpa using hc
      simp [Regex.matchAt, domain, Regex.attempts, Regex.runs, hb, hcls]
  | append_singleton a d =>
      have hstart : Regex.atLineStart (some d) b = false := by
        cases b using List.reverseRecOn with
        | nil => simp [Regex.atLineStart]
        | append_singleton b e =>
            -- in front of the last character there is no newline
            have hfront : a ++ [d] ++ b = c :: s := by
              rw [← List.append_assoc] at hab
              exact (List.append_inj' hab rfl).1
            have hd : d ≠ '\n' := by
              rintro rfl
              apply hs
              rw [← hfront]
              simp
            simp [Regex.atLineStart, hd]
      have hbehind : Regex.behind none (a ++ [d]) = some d := by simp [Regex.behind]
      simp [Regex.matchAt, domain, Regex.attempts, hbehind, hstart]

theorem trimmed_line {name : Str} (hfirst : ∃ c, name.head? = some c ∧ isWord c = true)
    (hlast : ∃ c, name.getLast? = some c ∧ isWord c = true) : trimmed (name ++ ['\n']) = name := by
  rcases hfirst with ⟨c, hhead, hc⟩
  rcases hlast with ⟨d, hend, hd⟩
  have hne : name ≠ [] := by
    rintro rfl
    simp at hhead
  have hdrop : (name ++ ['\n']).dropWhile (fun c => !isWord c) = name ++ ['\n'] := by
    cases name with
    | nil => exact absurd rfl hne
    | cons x name =>
        have hx : x = c := by simpa using hhead
        simp [hx, hc]
  have hkeep : name.rdropWhile (fun c => !isWord c) = name := by
    rw [List.rdropWhile_eq_self_iff]
    intro hne'
    have hgetLast : name.getLast hne' = d := by
      rw [List.getLast?_eq_some_getLast hne'] at hend
      simpa using hend
    simp [hgetLast, hd]
  rw [trimmed, hdrop, List.rdropWhile_concat_pos _ _ _ (by simp [isWord_newline]), hkeep]

/-- The whole name comes back, with its domain. -/
theorem hostname_line (platform : Platform) (hos : platform.os ≠ some .windows) (label : Label)
    (labels : List Label) :
    platform.hostname (hostName label labels ++ ['\n']) = hostName label labels := by
  rcases label.head?_hostName labels with ⟨c, hhead, hc⟩
  rcases label.getLast?_hostName labels with ⟨d, hlast, hd⟩
  have hnl := label.not_mem_hostName labels
  have hword := @Label.isWord_of_alphanum
  have hdomain : Regex.gsubStr domain "\\1".toList (hostName label labels ++ ['\n']) =
      hostName label labels ++ ['\n'] := by
    rw [Regex.gsubStr_eq_gsubFrom]
    apply Regex.gsubFrom_of_none
    intro a b hab
    cases hname : hostName label labels with
    | nil => simp [hname] at hhead
    | cons x name =>
        have hx : x = c := by simpa [hname] using hhead
        have hdot : x ≠ '.' := by
          rintro rfl
          rw [← hx] at hc
          simp at hc
        rw [hname] at hab hnl
        exact matchAt_domain_none hdot hnl hab
  have htrimmed := trimmed_line ⟨c, hhead, hword hc⟩ ⟨d, hlast, hword hd⟩
  rw [hostname, if_neg hos, hdomain, superChomp_eq_trimmed, htrimmed, squeezed_eq_self_iff]
  -- a name is one line
  · intro a b hab
    exact absurd (by simp [hab]) hnl
  · intro x hx
    have hxc : c = x := by simpa [hhead] using hx
    exact hxc ▸ hword hc
  · intro x hx
    have hxd : d = x := by simpa [hlast] using hx
    exact hxd ▸ hword hd

/-- The host is advertised by its first label if and only if it has no other. -/
theorem hostname_eq_first_iff (platform : Platform) (hos : platform.os ≠ some .windows)
    (label : Label) (labels : List Label) :
    platform.hostname (hostName label labels ++ ['\n']) = label.text ↔ labels = [] := by
  rw [hostname_line platform hos, label.hostName_eq_text_iff]

theorem hostname_eq_first_iff_sample :
    Platform.hostname { os := some .osx, runtime := .mri, home := none } "my-host2\n".toList =
      "my-host2".toList := by
  have hiff := hostname_eq_first_iff { os := some .osx, runtime := .mri, home := none } (by simp)
    { text := "my-host2".toList, chars := by simp, first := by decide, last := by decide } []
  exact hiff.2 rfl

/-- The domain stays in the name. -/
theorem domain_kept :
    ∃ (label : Label) (labels : List Label),
      hostName label labels = "host.example.com".toList ∧ label.text = "host".toList ∧
        Platform.hostname { os := some .linux, runtime := .mri, home := none }
          "host.example.com\n".toList = "host.example.com".toList := by
  refine ⟨{ text := "host".toList, chars := by simp, first := by decide, last := by decide },
    [{ text := "example".toList, chars := by simp, first := by decide, last := by decide },
      { text := "com".toList, chars := by simp, first := by decide, last := by decide }], ?_⟩
  decide

end Platform

end Yikes
