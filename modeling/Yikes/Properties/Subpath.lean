import Yikes.Lib.Engine
import Yikes.Lib.TargetExt

/-!
# Subpath — what an item keeps of its file's path

An item stores the library and the subpath of its file.  Joining the two again gives the path of the
file for every library, the empty one included (`sourcePath_new_join`).  A file that is not below the
library keeps its path, except where the library comes back inside it (`extractSubpath_eq_self_iff`).

The other path of an item has its extension replaced.  A video that passes the test of
`enqueue_files_to_encode` has its last extension replaced, and nothing else changes unless a dot in
front of it is followed by a line break before the next dot, slash or backslash
(`subpathAsTargetExt_extname_iff`).
-/

namespace Yikes

open Ruby

namespace EncodingItem

/-! ## The way back to the source -/

/-- Behind a path that ends in no separator of its own, `join2` puts the second part after what
joining with nothing leaves. -/
theorem join2_eq_append {a b : Str} (hb : b.head? ≠ some '/') :
    File.join2 a b = File.join2 a [] ++ b := by
  by_cases ha : a.getLast? = some '/'
  · simp [File.join2, ha, hb]
  · simp [File.join2, ha, hb]

theorem extractSubpath_join {library rel : Str} (hlibrary : library ≠ [])
    (hrel : rel.head? ≠ some '/') :
    extractSubpath library (File.join [library, rel]) = rel := by
  have hfile : File.join [library, rel] = File.join [library, []] ++ rel := join2_eq_append hrel
  -- the library is in front of itself joined with nothing
  have hfront : library <+: File.join [library, []] := by
    by_cases hsep : library.getLast? = some '/'
    · simp [File.join2, hsep]
    · simp [File.join2, hsep]
  have hindex : Str.index (File.join [library, rel]) library = some 0 := by
    rw [Str.index_eq_zero_iff, hfile]
    exact hfront.trans (List.prefix_append _ _)
  calc
    extractSubpath library (File.join [library, rel])
        = Str.sub (File.join [library, rel]) (File.join [library, []]) [] := by
          simp only [extractSubpath, hindex, hlibrary, ne_eq, not_false_eq_true, and_self, if_true]
    _ = Str.sub (File.join [library, []] ++ rel) (File.join [library, []]) [] := by rw [hfile]
    _ = rel := by simpa using Str.sub_append (File.join [library, []]) rel []

/-- An item remembers the path of its file, and for a library that is not empty its subpath is the
relative path of the file. -/
theorem sourcePath_new_join (library rel target : Str) (hrel : rel.head? ≠ some '/') :
    (new library (File.join [library, rel]) target).sourcePath = File.join [library, rel] ∧
      (library ≠ [] → (new library (File.join [library, rel]) target).subpath = rel) := by
  have hsubpath : library ≠ [] →
      (new library (File.join [library, rel]) target).subpath = rel :=
    fun hlibrary => extractSubpath_join hlibrary hrel
  refine ⟨?_, hsubpath⟩
  by_cases hlibrary : library = []
  · -- the whole path is kept, and its own separator is the one that joins it
    subst hlibrary
    simp [new, sourcePath, extractSubpath, File.join2, hrel, File.chompSep]
  · have hrel' := hsubpath hlibrary
    unfold sourcePath
    rw [hrel']
    rfl

theorem sourcePath_new_join_sample :
    (new "a/a//".toList (File.join ["a/a//".toList, "a/a.avi".toList]) "t".toList).sourcePath =
        "a/a//a/a.avi".toList ∧
      (new "a/a//".toList (File.join ["a/a//".toList, "a/a.avi".toList]) "t".toList).subpath =
        "a/a.avi".toList := by
  have h := sourcePath_new_join "a/a//".toList "a/a.avi".toList "t".toList (by decide)
  exact ⟨h.1, h.2 (by decide)⟩

/-! ## Files outside of the library -/

/-- The file is not what joining the library with a relative path gives. -/
def Outside (library file : Str) : Prop :=
  ∀ rel : Str, rel ≠ [] → rel.head? ≠ some '/' → file ≠ File.join [library, rel]

/-- A file keeps its path, unless it starts with the characters of the library and the library with
a separator behind it stands anywhere in it. -/
theorem extractSubpath_eq_self_iff {library file : Str} (hlibrary : library ≠ []) :
    extractSubpath library file = file ↔
      ¬ (library <+: file ∧ File.join [library, []] <:+: file) := by
  have hjoined : File.join [library, []] ≠ [] := by
    by_cases hsep : library.getLast? = some '/'
    · simp [File.join2, hsep, hlibrary]
    · simp [File.join2, hsep]
  have hsub := Str.sub_eq_self_iff hjoined file
  by_cases hfront : library <+: file
  · have hindex : Str.index file library = some 0 := Str.index_eq_zero_iff.2 hfront
    have hcut : extractSubpath library file = Str.sub file (File.join [library, []]) [] := by
      simp only [extractSubpath, hindex, hlibrary, ne_eq, not_false_eq_true, and_self, if_true]
    rw [hcut, hsub]
    simp only [hfront, true_and]
  · -- the guard sees that the file does not start like the library
    have hindex : Str.index file library ≠ some 0 := fun h => hfront (Str.index_eq_zero_iff.1 h)
    simp [extractSubpath, hindex, hfront]

theorem extractSubpath_eq_self_iff_sample :
    extractSubpath "/v/a".toList "/v/ab/v/c.avi".toList = "/v/ab/v/c.avi".toList := by
  have hiff := @extractSubpath_eq_self_iff "/v/a".toList "/v/ab/v/c.avi".toList (by decide)
  have hnot : ¬ ("/v/a".toList <+: "/v/ab/v/c.avi".toList ∧
      File.join ["/v/a".toList, []] <:+: "/v/ab/v/c.avi".toList) := by
    decide
  exact hiff.2 hnot

/-- `/a` starts `/ab`, and comes back as a whole name behind it. -/
theorem neighbour_of_library_cut :
    Outside "/a".toList "/ab/a/c.avi".toList ∧
      extractSubpath "/a".toList "/ab/a/c.avi".toList = "/abc.avi".toList := by
  refine ⟨?_, by decide⟩
  intro rel _ hrel hfile
  have hjoin : File.join ["/a".toList, rel] = "/a/".toList ++ rel := by
    simp [File.join2, hrel]
  rw [hjoin] at hfile
  have hthird := congrArg (fun x => x[2]?) hfile
  simp at hthird

/-! ## The way to the target -/

/-- A line break that comes after a dot, with no dot, slash or backslash between, is behind `mp4`. -/
def BreaksFollowMp4 (stem : Str) : Prop :=
  ∀ a m b, stem = a ++ '.' :: (m ++ '\n' :: b) → (∀ c ∈ m, isSpecial c = false) → m = mp4

theorem lineRun_of_break {m : Str} (hm : ∀ c ∈ m, isSpecial c = false) (b : Str) :
    lineRun (m ++ '\n' :: b) ≠ none := by
  induction m with
  | nil =>
      cases hrun : lineRun b with
      | some r => simp [lineRun, isSpecial, hrun]
      | none => simp [lineRun, isSpecial, hrun]
  | cons c m ih =>
      have hc : isSpecial c = false := hm c (by simp)
      have htail := ih fun x hx => hm x (by simp [hx])
      cases hrun : lineRun (m ++ '\n' :: b) with
      | none => exact absurd hrun htail
      | some r => simp [lineRun, hc, hrun]

/-- A run that has a dot ahead ends at a line break. -/
theorem break_of_lineRun {e : Str} :
    ∀ {s m rest : Str}, lineRun (s ++ '.' :: e) = some (m, rest) →
      (∀ c ∈ m, isSpecial c = false) ∧
        ∃ b, s = m ++ '\n' :: b ∧ rest = '\n' :: (b ++ '.' :: e) := by
  intro s
  induction s with
  | nil =>
      intro m rest h
      simp [lineRun, isSpecial] at h
  | cons c s ih =>
      intro m rest h
      have hc : isSpecial c = false := by
        cases hc : isSpecial c with
        | false => rfl
        | true => simp [lineRun, hc] at h
      cases hrun : lineRun (s ++ '.' :: e) with
      | some r =>
          have hr : c :: r.1 = m ∧ r.2 = rest := by simpa [lineRun, hc, hrun] using h
          rcases ih hrun with ⟨hspecial, b, hs, hrest⟩
          refine ⟨?_, b, by simp [← hr.1, hs], hr.2 ▸ hrest⟩
          intro x hx
          rw [← hr.1] at hx
          rcases List.mem_cons.1 hx with rfl | hx
          · exact hc
          · exact hspecial x hx
      | none =>
          have hnl : c = '\n' ∧ [] = m ∧ c :: (s ++ '.' :: e) = rest := by
            simpa [lineRun, hc, hrun] using h
          rcases hnl with ⟨rfl, rfl, rfl⟩
          exact ⟨by simp, s, rfl, rfl⟩

/-- The rewriting changes nothing in front of the first dot. -/
theorem takeWhile_subpathAsTargetExt (s : Str) :
    (subpathAsTargetExt s).takeWhile (· != '.') = s.takeWhile (· != '.') := by
  induction s with
  | nil => simp
  | cons c s ih =>
      by_cases hdot : c = '.'
      · subst hdot
        cases hrun : lineRun s with
        | none => simp [subpathAsTargetExt_of_none hrun]
        | some r => simp [subpathAsTargetExt_of_some hrun]
      · simp [subpathAsTargetExt_of_ne hdot, hdot, ih]

section Condition

variable {s b : Str}

theorem breaksFollowMp4_of_ne {c : Char} (hc : c ≠ '.') :
    BreaksFollowMp4 (c :: s) ↔ BreaksFollowMp4 s := by
  constructor
  · intro h a m b hs hm
    exact h (c :: a) m b (by simp [hs]) hm
  · intro h a m b hs hm
    cases a with
    | nil =>
        simp only [List.nil_append, List.cons.injEq] at hs
        exact absurd hs.1 hc
    | cons x a =>
        simp only [List.cons_append, List.cons.injEq] at hs
        exact h a m b hs.2 hm

theorem breaksFollowMp4_of_none {e : Str} (h : lineRun (s ++ '.' :: e) = none) :
    BreaksFollowMp4 ('.' :: s) ↔ BreaksFollowMp4 s := by
  constructor
  · intro hs a m b heq hm
    exact hs ('.' :: a) m b (by simp [heq]) hm
  · intro hs a m b heq hm
    cases a with
    | nil =>
        -- the first dot has a line break in its run, so the run would not be empty
        simp only [List.nil_append, List.cons.injEq, true_and] at heq
        rw [heq, List.append_assoc, List.cons_append] at h
        exact absurd h (lineRun_of_break hm _)
    | cons x a =>
        simp only [List.cons_append, List.cons.injEq] at heq
        exact hs a m b heq.2 hm

/-- Behind a match that is `.mp4` already, no second line break follows in the same run. -/
theorem breaksFollowMp4_mp4 {e : Str} (hlast : lineRun (b ++ '.' :: e) = none) :
    BreaksFollowMp4 ('.' :: (mp4 ++ '\n' :: b)) ↔ BreaksFollowMp4 ('\n' :: b) := by
  constructor
  · intro h a m b' heq hm
    exact h ('.' :: (mp4 ++ a)) m b' (by simp [heq]) hm
  · intro h a m b' heq hm
    cases a with
    | nil =>
        simp only [List.nil_append, List.cons.injEq, true_and] at heq
        rcases List.append_eq_append_iff.1 heq with ⟨k, hk, hrest⟩ | ⟨k, hk, hrest⟩
        · cases k with
          | nil => simpa using hk
          | cons x k =>
              -- a longer run would have a line break ahead of it
              simp only [List.cons_append, List.cons.injEq] at hrest
              rw [hrest.2, List.append_assoc, List.cons_append] at hlast
              refine absurd hlast (lineRun_of_break ?_ _)
              intro c hc
              exact hm c (by simp [hk, hc])
        · cases k with
          | nil => simpa using hk.symm
          | cons x k =>
              simp only [List.cons_append, List.cons.injEq] at hrest
              have hmem : '\n' ∈ mp4 := by
                rw [hk, ← hrest.1]
                simp
              exact absurd hmem (by decide)
    | cons x a =>
        simp only [List.cons_append, List.cons.injEq] at heq
        rcases List.append_eq_append_iff.1 heq.2 with ⟨k, hk, hrest⟩ | ⟨k, hk, hrest⟩
        · exact h k m b' hrest hm
        · cases k with
          | nil => exact h [] m b' hrest.symm hm
          | cons y k =>
              simp only [List.cons_append, List.cons.injEq] at hrest
              have hmem : '.' ∈ mp4 := by
                rw [hk, ← hrest.1]
                simp
              exact absurd hmem (by decide)

end Condition

theorem lineRun_of_no_special {e : Str} (he : ∀ c ∈ e, isSpecial c = false) :
    lineRun e = some (e, []) := by
  induction e with
  | nil => rfl
  | cons c e ih =>
      have hc : isSpecial c = false := he c (by simp)
      simp [lineRun, hc, ih fun x hx => he x (by simp [hx])]

theorem takeWhile_append_dot (b t : Str) :
    (b ++ '.' :: t).takeWhile (· != '.') = b.takeWhile (· != '.') := by
  induction b with
  | nil => simp
  | cons c b ih => simp [List.takeWhile_cons, ih]

/-- A match that is rewritten to what it was: in front of the next dot nothing else changes. -/
theorem run_eq_mp4 {e m b : Str} (hm : ∀ c ∈ m, isSpecial c = false)
    (h : mp4 ++ subpathAsTargetExt ('\n' :: (b ++ '.' :: e)) = m ++ '\n' :: (b ++ '.' :: mp4)) :
    m = mp4 := by
  have hnodot : ∀ c ∈ m, (c != '.') = true := by
    intro c hc
    have hcs := hm c hc
    rw [bne_iff_ne]
    rintro rfl
    simp [isSpecial] at hcs
  have hfront := congrArg (List.takeWhile (· != '.')) h
  rw [List.takeWhile_append_of_pos (by simp [mp4]), List.takeWhile_append_of_pos hnodot,
    takeWhile_subpathAsTargetExt, ← List.cons_append, takeWhile_append_dot, ← List.cons_append,
    takeWhile_append_dot] at hfront
  exact (List.append_cancel_right hfront).symm

/-- Only the last extension is replaced, if and only if every line break in the run of an earlier dot
is behind `mp4`. -/
theorem subpathAsTargetExt_append_iff {e : Str} (he : ∀ c ∈ e, isSpecial c = false) :
    (stem : Str) → (subpathAsTargetExt (stem ++ '.' :: e) = stem ++ '.' :: mp4 ↔
      BreaksFollowMp4 stem)
  | [] => by
      have hmatch := subpathAsTargetExt_of_some (lineRun_of_no_special he)
      have hnil : BreaksFollowMp4 [] := by
        intro a m b h
        simp at h
      simp [hmatch, hnil]
  | c :: s => by
      by_cases hdot : c = '.'
      · subst hdot
        cases hrun : lineRun (s ++ '.' :: e) with
        | none =>
            have ih := subpathAsTargetExt_append_iff he s
            rw [breaksFollowMp4_of_none hrun, List.cons_append,
              subpathAsTargetExt_of_none hrun, List.cons_append, List.cons.injEq]
            simpa using ih
        | some r =>
            -- the run of this dot ends at a line break, and is replaced whatever it is
            rcases break_of_lineRun hrun with ⟨hspecial, b, hs, hrest⟩
            -- behind it the run of the last dot is the whole extension
            have hlast : lineRun (b ++ '.' :: e) = none := by
              have hempty := (lineRun_spec hrun).2
              rw [hrest] at hempty
              cases hb : lineRun (b ++ '.' :: e) with
              | none => rfl
              | some r => simp [lineRun, isSpecial, hb] at hempty
            have hlt : ('\n' :: b).length < ('.' :: s).length := by
              simp only [hs, List.length_cons, List.length_append]
              omega
            have ih := subpathAsTargetExt_append_iff he ('\n' :: b)
            rw [List.cons_append, List.cons_append] at ih
            have hout : subpathAsTargetExt ('.' :: (s ++ '.' :: e)) =
                '.' :: (mp4 ++ subpathAsTargetExt ('\n' :: b ++ '.' :: e)) := by
              rw [subpathAsTargetExt_of_some hrun, hrest, List.cons_append]
            rw [List.cons_append, hout, hs, List.cons_append, List.cons_append, List.cons.injEq]
            constructor
            · rintro ⟨_, heq⟩
              have hm : r.1 = mp4 := run_eq_mp4 hspecial (by simpa using heq)
              rw [hm, breaksFollowMp4_mp4 hlast]
              apply ih.1
              refine @List.append_cancel_left _ mp4 _ _ ?_
              simpa [hm] using heq
            · intro hbreaks
              have hm : r.1 = mp4 := hbreaks [] r.1 b rfl hspecial
              rw [hm, breaksFollowMp4_mp4 hlast] at hbreaks
              rw [hm, ih.2 hbreaks, List.append_assoc, List.cons_append]
              exact ⟨rfl, rfl⟩
      · have ih := subpathAsTargetExt_append_iff he s
        rw [breaksFollowMp4_of_ne hdot, List.cons_append, subpathAsTargetExt_of_ne hdot,
          List.cons_append, List.cons.injEq]
        simpa using ih
termination_by stem => stem.length

theorem toLower_of_isSpecial {c : Char} (hc : isSpecial c = true) : c.toLower = c := by
  have hcases : (c = '.' ∨ c = '/') ∨ c = '\\' := by simpa [isSpecial] using hc
  rcases hcases with (rfl | rfl) | rfl
  · rfl
  · rfl
  · rfl

theorem toLower_eq_dot {c : Char} : c.toLower = '.' ↔ c = '.' := by
  constructor
  · intro h
    unfold Char.toLower at h
    split at h
    · next hupper =>
        -- a capital letter is moved behind all of the special characters
        have hval := congrArg (fun x => x.val.toNat) h
        simp only [UInt32.toNat_add] at hval
        have hlow := UInt32.le_iff_toNat_le.1 hupper.1
        have hhigh := UInt32.le_iff_toNat_le.1 hupper.2
        simp at hval hlow hhigh
        omega
    · exact h
  · rintro rfl
    rfl

/-- The extensions of the filter are a dot and characters that mean nothing to the pattern. -/
theorem ext_of_allowed {ext : Str} (h : AllowedFiletypes.contains ext.downcase = true) :
    ∃ e, ext = '.' :: e ∧ ∀ c ∈ e, isSpecial c = false := by
  have hall : ∀ x ∈ AllowedFiletypes,
      x.head? = some '.' ∧ x.tail.all (fun c => !isSpecial c) = true := by
    decide
  rcases hall _ (by simpa using h) with ⟨hhead, htail⟩
  cases ext with
  | nil => simp [Str.downcase] at hhead
  | cons c e =>
      have hc : c = '.' := by
        simp only [Str.downcase, List.map_cons, List.head?_cons, Option.some.injEq] at hhead
        exact toLower_eq_dot.1 hhead
      refine ⟨e, by rw [hc], ?_⟩
      intro x hx
      cases hspecial : isSpecial x with
      | false => rfl
      | true =>
          simp only [Str.downcase, List.map_cons, List.tail_cons, List.all_map,
            List.all_eq_true] at htail
          have hlower := htail x hx
          simp [toLower_of_isSpecial hspecial, hspecial] at hlower

/-- The extension that the filter saw is replaced and nothing else, if and only if the rest of the
path has no line break behind a dot except right behind `.mp4`. -/
theorem subpathAsTargetExt_extname_iff {path stem : Str} (hpath : path = stem ++ File.extname path)
    (hallowed : AllowedFiletypes.contains (File.extname path).downcase = true) :
    (subpathAsTargetExt path = stem ++ '.' :: mp4 ∧
      ∀ target, buildTargetPath target path = File.join [target, stem ++ '.' :: mp4]) ↔
    BreaksFollowMp4 stem := by
  rcases ext_of_allowed hallowed with ⟨e, hext, he⟩
  rw [hext] at hpath
  constructor
  · rintro ⟨h, _⟩
    rw [hpath] at h
    exact (subpathAsTargetExt_append_iff he stem).1 h
  · intro h
    have hsubpath : subpathAsTargetExt path = stem ++ '.' :: mp4 := by
      rw [hpath]
      exact (subpathAsTargetExt_append_iff he stem).2 h
    refine ⟨hsubpath, ?_⟩
    intro target
    rw [buildTargetPath, hsubpath]

theorem subpathAsTargetExt_extname_iff_sample :
    subpathAsTargetExt "d.x/s\\.t.AVI".toList = "d.x/s\\.t".toList ++ '.' :: mp4 := by
  have hstem : BreaksFollowMp4 "d.x/s\\.t".toList := by
    intro a m b h
    have hmem : '\n' ∈ "d.x/s\\.t".toList := by
      rw [h]
      simp
    exact absurd hmem (by decide)
  have hiff := @subpathAsTargetExt_extname_iff "d.x/s\\.t.AVI".toList "d.x/s\\.t".toList
    (by decide) (by decide)
  exact (hiff.2 hstem).1

/-- The first line of the stem loses its ending too. -/
theorem line_of_stem_rewritten :
    "x.y\nz.avi".toList = "x.y\nz".toList ++ File.extname "x.y\nz.avi".toList ∧
      AllowedFiletypes.contains (File.extname "x.y\nz.avi".toList).downcase = true ∧
      subpathAsTargetExt "x.y\nz.avi".toList = "x.mp4\nz.mp4".toList ∧
      "x.mp4\nz.mp4".toList ≠ "x.y\nz".toList ++ '.' :: mp4 := by
  decide

end EncodingItem

end Yikes
