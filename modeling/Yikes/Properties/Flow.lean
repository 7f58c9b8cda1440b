import Yikes.Properties.Beneath
import Yikes.Properties.Collide
import Yikes.Ruby.Spread

/-!
# Flow — where the outputs of an engine go

An engine is a `Flow` between two places: for every video below its library there is to be an output
below its target, with the same names but for the extension (`Converts`).  An output is a video itself,
and its own output has the same names (`Converts.again`).  So whether there is an end to what an engine
makes depends on the two places alone.

* There is none when the target is inside the library, in view of the scan, and there is a video
  (`finite_reach_iff`);
* engines whose targets no library is near make everything in one round (`closed_round_of_apart`).
-/

namespace Yikes

open Ruby

namespace EncodingItem

/-! ## The name of an output -/

theorem subpathAsTargetExt_again (s : Str) :
    subpathAsTargetExt (subpathAsTargetExt s) = subpathAsTargetExt s :=
  subpathAsTargetExt_inj.2 (stems_subpathAsTargetExt s)

theorem mem_subpathAsTargetExt {c : Char} :
    (s : Str) → c ∈ subpathAsTargetExt s → c ∈ s ∨ c ∈ '.' :: mp4
  | [], h => by simp at h
  | d :: s, h => by
      by_cases hdot : d = '.'
      · subst hdot
        cases hrun : lineRun s with
        | none =>
            rw [subpathAsTargetExt_of_none hrun] at h
            rcases List.mem_cons.1 h with rfl | h
            · exact Or.inl List.mem_cons_self
            · rcases mem_subpathAsTargetExt s h with h | h
              · exact Or.inl (List.mem_cons_of_mem _ h)
              · exact Or.inr h
        | some r =>
            have hsame := (lineRun_spec hrun).1
            have hlt : r.2.length ≤ s.length := by
              rw [← hsame]
              simp
            rw [subpathAsTargetExt_of_some hrun, ← List.cons_append] at h
            rcases List.mem_append.1 h with h | h
            · exact Or.inr h
            · rcases mem_subpathAsTargetExt r.2 h with h | h
              · left
                rw [← hsame]
                simp [h]
              · exact Or.inr h
      · rw [subpathAsTargetExt_of_ne hdot] at h
        rcases List.mem_cons.1 h with rfl | h
        · exact Or.inl List.mem_cons_self
        · rcases mem_subpathAsTargetExt s h with h | h
          · exact Or.inl (List.mem_cons_of_mem _ h)
          · exact Or.inr h
termination_by s => s.length

theorem basename_of_no_sep {name : Str} (h : '/' ∉ name) : File.basename name = name := by
  have hchomp : File.chompSep name = name :=
    File.chompSep_of_getLast?_ne fun hlast => h (List.mem_of_getLast? hlast)
  rw [File.basename, hchomp, List.rtakeWhile_eq_self_iff]
  intro c hc
  have hne : c ≠ '/' := by
    rintro rfl
    exact h hc
  simpa using hne

theorem extname_of_mp4_suffix {name : Str} (hsep : '/' ∉ name) (hdot : name.head? ≠ some '.')
    (h : '.' :: mp4 <:+ name) : File.extname name = '.' :: mp4 := by
  rcases h with ⟨stem, rfl⟩
  have hstem : stem ≠ [] := by
    rintro rfl
    simp at hdot
  have hlong : ¬ (stem ++ ['.']).length ≤ 1 := by
    have hpos := List.length_pos_of_ne_nil hstem
    simp only [List.length_append, List.length_singleton]
    omega
  have hfront : (stem ++ '.' :: mp4).rdropWhile (· != '.') = stem ++ ['.'] := by
    simp [List.rdropWhile, mp4]
  have hback : (stem ++ '.' :: mp4).rtakeWhile (· != '.') = mp4 := by
    simp [List.rtakeWhile, mp4]
  have hmp4 : mp4 ≠ [] := by decide
  simp only [File.extname, basename_of_no_sep hsep, hfront, hback, hlong, hmp4, or_self, if_false]

end EncodingItem

/-! ## Videos and their outputs -/

/-- A name that the scan of a library shows. -/
def Shown (name : Str) : Prop :=
  ValidName name ∧ name.head? ≠ some '.'

/-- `rel` are the names of a video below its library, `out` those of its output below the target. -/
def Converts (rel out : List Str) : Prop :=
  ∃ dirs name, rel = dirs ++ [name] ∧ (∀ x ∈ rel, Shown x) ∧
    (File.extname name).downcase ∈ AllowedFiletypes ∧
    out = dirs ++ [EncodingItem.subpathAsTargetExt name]

/-- What a video is named, its output is named too, but for the extension. -/
theorem shown_subpathAsTargetExt {name : Str} (h : Shown name) :
    Shown (EncodingItem.subpathAsTargetExt name) := by
  have hhead := EncodingItem.head?_subpathAsTargetExt name
  have hdot : (EncodingItem.subpathAsTargetExt name).head? ≠ some '.' := by
    rw [hhead]
    exact h.2
  refine ⟨⟨?_, ?_, ?_, ?_⟩, hdot⟩
  · intro hnil
    rw [hnil] at hhead
    exact h.1.1 (List.head?_eq_none_iff.1 hhead.symm)
  · intro hsep
    rcases EncodingItem.mem_subpathAsTargetExt name hsep with hmem | hmem
    · exact h.1.2.1 hmem
    · exact absurd hmem (by decide)
  · intro heq
    simp [heq] at hdot
  · intro heq
    simp [heq] at hdot

theorem mp4_suffix_of_allowed {name : Str} (h : Shown name)
    (hext : (File.extname name).downcase ∈ AllowedFiletypes) :
    '.' :: EncodingItem.mp4 <:+ EncodingItem.subpathAsTargetExt name := by
  rcases EncodingItem.ext_of_allowed (List.contains_iff_mem.2 hext) with ⟨e, he, hspecial⟩
  have hlast : name.getLast? ≠ some '/' := fun hlast => h.1.2.1 (List.mem_of_getLast? hlast)
  rcases extname_suffix hlast with ⟨stem, hstem⟩
  rw [← hstem, he]
  exact EncodingItem.mp4_suffix hspecial stem

namespace Converts

variable {rel out : List Str}

theorem length (h : Converts rel out) : out.length = rel.length := by
  rcases h with ⟨dirs, name, rfl, _, _, rfl⟩
  simp

theorem unique {out' : List Str} (h : Converts rel out) (h' : Converts rel out') : out = out' := by
  rcases h with ⟨dirs, name, rfl, _, _, rfl⟩
  rcases h' with ⟨dirs', name', hrel, _, _, rfl⟩
  have hparts := List.append_inj' hrel rfl
  have hname : name = name' := by simpa using hparts.2
  rw [hparts.1, hname]

theorem shown (h : Converts rel out) : ∀ x ∈ out, Shown x := by
  rcases h with ⟨dirs, name, rfl, hshown, _, rfl⟩
  intro x hx
  rcases List.mem_append.1 hx with hx | hx
  · exact hshown x (List.mem_append.2 (Or.inl hx))
  · rw [List.mem_singleton.1 hx]
    exact shown_subpathAsTargetExt (hshown name (by simp))

/-- The last name of an output is that of a file the next conversion leaves as it is. -/
theorem last (h : Converts rel out) :
    ∃ dirs name, out = dirs ++ [name] ∧ '.' :: EncodingItem.mp4 <:+ name := by
  rcases h with ⟨dirs, name, rfl, hshown, hext, rfl⟩
  exact ⟨dirs, _, rfl, mp4_suffix_of_allowed (hshown name (by simp)) hext⟩

theorem again (h : Converts rel out) : Converts out out := by
  have hshown := h.shown
  rcases h with ⟨dirs, name, rfl, hrel, hext, rfl⟩
  have hname : Shown name := hrel name (by simp)
  have hname' := shown_subpathAsTargetExt hname
  refine ⟨dirs, _, rfl, hshown, ?_, ?_⟩
  · rw [EncodingItem.extname_of_mp4_suffix hname'.1.2.1 hname'.2
      (mp4_suffix_of_allowed hname hext)]
    decide
  · rw [EncodingItem.subpathAsTargetExt_again]

/-- Seen from a directory further up, the names in front stay. -/
theorem append {sub : List Str} (hsub : ∀ x ∈ sub, Shown x) (h : Converts rel out) :
    Converts (sub ++ rel) (sub ++ out) := by
  rcases h with ⟨dirs, name, rfl, hshown, hext, rfl⟩
  refine ⟨sub ++ dirs, name, by simp, ?_, hext, by simp⟩
  intro x hx
  rcases List.mem_append.1 hx with hx | hx
  · exact hsub x hx
  · exact hshown x hx

theorem shown_of_append {sub : List Str} (h : Converts (sub ++ rel) out) : ∀ x ∈ sub, Shown x := by
  rcases h with ⟨dirs, name, _, hshown, _, _⟩
  exact fun x hx => hshown x (List.mem_append.2 (Or.inl hx))

end Converts

/-! ## Flows -/

/-- The places of a library and of a target. -/
structure Flow where
  root : Loc
  target : Loc
  deriving DecidableEq, Repr

namespace Flow

variable {flow : Flow} {F : Set Loc}

/-- `b` is the output for the video at `a`. -/
def Makes (flow : Flow) (a b : Loc) : Prop :=
  ∃ rel out, a = flow.root ++ rel ∧ Converts rel out ∧ b = flow.target ++ out

/-- The target is inside the library, where the scan sees it. -/
def Inner (flow : Flow) : Prop :=
  ∃ sub, sub ≠ [] ∧ flow.target = flow.root ++ sub ∧ ∀ x ∈ sub, Shown x

theorem finite_makes (flow : Flow) (a : Loc) : {b | flow.Makes a b}.Finite := by
  refine Set.Subsingleton.finite ?_
  rintro b ⟨rel, out, rfl, hout, rfl⟩ c ⟨rel', out', ha, hout', rfl⟩
  have hrel : rel = rel' := List.append_cancel_left ha
  subst hrel
  rw [hout.unique hout']

/-- Where an output of one flow is in the library of another, one of the two directories is inside the
other one. -/
theorem makes_of_makes {f g : Flow} {a b c : Loc} (h : f.Makes a b) (h' : g.Makes b c) :
    (∃ sub, f.target = g.root ++ sub ∧ ∀ x ∈ sub, Shown x) ∨
      ∃ sub, sub ≠ [] ∧ g.root = f.target ++ sub := by
  rcases h with ⟨rel, out, rfl, hout, rfl⟩
  rcases h' with ⟨rel', out', hb, hout', rfl⟩
  rcases List.append_eq_append_iff.1 hb with ⟨sub, hroot, hrel⟩ | ⟨sub, htarget, hrel⟩
  · by_cases hnil : sub = []
    · exact Or.inl ⟨[], by simp [hroot, hnil], by simp⟩
    · exact Or.inr ⟨sub, hnil, hroot⟩
  · rw [hrel] at hout'
    exact Or.inl ⟨sub, htarget, hout'.shown_of_append⟩

/-- Into its own library nothing else is put again. -/
theorem eq_of_makes {a b c : Loc} (h : flow.Makes a b) (h' : flow.Makes b c)
    (hsame : flow.target = flow.root) : c = b := by
  rcases h with ⟨rel, out, rfl, hout, rfl⟩
  rcases h' with ⟨rel', out', hb, hout', rfl⟩
  rw [hsame] at hb
  have hrel : out = rel' := List.append_cancel_left hb
  subst hrel
  rw [hout.again.unique hout']

/-- An output below a target that is inside the library is a video with an output deeper down. -/
theorem makes_deeper (hinner : flow.Inner) {a b : Loc} (h : flow.Makes a b) :
    a.length < b.length ∧ ∃ c, flow.Makes b c := by
  rcases hinner with ⟨sub, hne, htarget, hshown⟩
  rcases h with ⟨rel, out, rfl, hout, rfl⟩
  have hpos := List.length_pos_of_ne_nil hne
  have hlength := hout.length
  refine ⟨?_, _, sub ++ out, sub ++ out, by simp [htarget], hout.again.append hshown, rfl⟩
  simp only [htarget, List.length_append]
  omega

/-- There is an end to what an engine makes, unless its target is inside its library, in view of the
scan, and there is a video. -/
theorem finite_reach_iff (hF : F.Finite) :
    (Spread.reach flow.Makes F).Finite ↔ ¬ (flow.Inner ∧ ∃ a ∈ F, ∃ b, flow.Makes a b) := by
  constructor
  · rintro hfinite ⟨hinner, a, ha, hvideo⟩
    refine @Spread.infinite_reach_of_lt _ flow.Makes F List.length
      (fun a => ∃ b, flow.Makes a b) ?_ ⟨a, ha, hvideo⟩ hfinite
    rintro x ⟨y, hxy⟩
    have hdeeper := makes_deeper hinner hxy
    exact ⟨y, hxy, hdeeper.2, hdeeper.1⟩
  · intro hnot
    by_cases hvideo : ∃ a ∈ F, ∃ b, flow.Makes a b
    · have hinner : ¬ flow.Inner := fun hinner => hnot ⟨hinner, hvideo⟩
      by_cases hbelow : ∃ sub, sub ≠ [] ∧ flow.root = flow.target ++ sub
      · -- the library is inside the target: outputs are further up than their videos
        rcases hbelow with ⟨sub, hne, hroot⟩
        have hpos := List.length_pos_of_ne_nil hne
        refine @Spread.finite_reach_of_lt _ flow.Makes F List.length hF flow.finite_makes ?_
        rintro a b ⟨rel, out, rfl, hout, rfl⟩
        have hlength := hout.length
        simp only [hroot, List.length_append]
        omega
      · refine Spread.finite_reach_of_ends hF flow.finite_makes ?_
        intro a b c hab hbc
        rcases makes_of_makes hab hbc with ⟨sub, htarget, hshown⟩ | hbelow'
        · by_cases hnil : sub = []
          · exact eq_of_makes hab hbc (by simp [htarget, hnil])
          · exact absurd ⟨sub, hnil, htarget, hshown⟩ hinner
        · exact absurd hbelow' hbelow
    · refine hF.subset (Spread.reach_subset Set.Subset.rfl ?_)
      intro a ha b hab
      exact absurd ⟨a, ha, b, hab⟩ hvideo

/-! ## Several flows -/

/-- What the first one makes the second one does not see. -/
def Apart (f g : Flow) : Prop :=
  (∀ sub, f.target = g.root ++ sub → ∃ x ∈ sub, ¬ Shown x) ∧ ¬ f.target <+: g.root

section Apart

variable {flows : List Flow} (h : ∀ f ∈ flows, ∀ g ∈ flows, f.Apart g)

include h

theorem ends_of_apart (a b c : Loc) (hab : Spread.any (flows.map Makes) a b) :
    ¬ Spread.any (flows.map Makes) b c := by
  rintro ⟨r', hr', hbc⟩
  rcases hab with ⟨r, hr, hab⟩
  rcases List.mem_map.1 hr with ⟨f, hf, rfl⟩
  rcases List.mem_map.1 hr' with ⟨g, hg, rfl⟩
  rcases makes_of_makes hab hbc with ⟨sub, htarget, hshown⟩ | ⟨sub, _, hroot⟩
  · rcases (h f hf g hg).1 sub htarget with ⟨x, hx, hnot⟩
    exact hnot (hshown x hx)
  · exact (h f hf g hg).2 ⟨sub, hroot.symm⟩

/-- When no library sees a target, one round makes the outputs of the videos there are. -/
theorem round_of_apart (F : Set Loc) :
    Spread.round (flows.map Makes) F = Spread.spread (Spread.any (flows.map Makes)) F :=
  Spread.round_eq_spread (ends_of_apart h) F

/-- Then there is nothing left to make. -/
theorem closed_round_of_apart (F : Set Loc) :
    Spread.Closed (Spread.any (flows.map Makes)) (Spread.round (flows.map Makes) F) :=
  Spread.closed_round (fun a b c hab hbc => absurd hbc (ends_of_apart h a b c hab)) F

end Apart

end Flow

end Yikes
