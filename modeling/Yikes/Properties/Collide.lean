import Yikes.Lib.TargetExt
import Yikes.Properties.Converge

/-!
# Collide — when two videos have one target

The target of a video is its subpath behind the target directory, rewritten to `.mp4`.  The rewriting
keeps the separators between the two, so two targets are one exactly if the subpaths, as they are put
behind the directory, agree outside the rewritten matches.

Different target paths may still lead to one place, through links.  `Occupied` is the turn of an item
whose place has something in it that another item's target path leads to; `Apart` is what keeps a pass
from such turns, and `targets_apart_iff` the result.
-/

namespace Yikes

open Ruby

namespace EncodingItem

/-- The rewriting keeps leading separators. -/
theorem subpathAsTargetExt_seps {s : Str} (b : Str) (hs : ∀ c ∈ s, c = '/') :
    subpathAsTargetExt (s ++ b) = s ++ subpathAsTargetExt b := by
  induction s with
  | nil => rfl
  | cons c s ih =>
      have hc : c ≠ '.' := by
        rintro rfl
        have hdot := hs '.' (by simp)
        cases hdot
      rw [List.cons_append, subpathAsTargetExt_of_ne hc, ih fun x hx => hs x (by simp [hx]),
        List.cons_append]

theorem head?_subpathAsTargetExt (s : Str) : (subpathAsTargetExt s).head? = s.head? := by
  cases s with
  | nil => simp
  | cons c s =>
      by_cases hc : c = '.'
      · subst hc
        cases hrun : lineRun s with
        | none => simp [subpathAsTargetExt_of_none hrun]
        | some r => simp [subpathAsTargetExt_of_some hrun]
      · simp [subpathAsTargetExt_of_ne hc]

theorem landing_subpathAsTargetExt (target subpath : Str) :
    File.landing target (subpathAsTargetExt subpath) =
      subpathAsTargetExt (File.landing target subpath) := by
  have hseps : ∀ c ∈ File.separators target, c = '/' := by
    intro c hc
    unfold File.separators at hc
    split at hc
    · simpa using List.mem_rtakeWhile_imp hc
    · simpa using hc
  -- `File.join` puts separators in front of the subpath or leaves its own; either way they stay
  by_cases hroot : subpath.head? = some '/'
  · simp [File.landing, head?_subpathAsTargetExt, hroot]
  · simp [File.landing, head?_subpathAsTargetExt, hroot, subpathAsTargetExt_seps _ hseps]

/-- The part of a target path that comes from the video, outside of the matches of the rewriting. -/
def targetStems (item : EncodingItem) : List Str :=
  stems (File.landing item.target item.subpath)

theorem targetPath_eq_iff {item item' : EncodingItem} (htarget : item.target = item'.target) :
    item.targetPath = item'.targetPath ↔ item.targetStems = item'.targetStems := by
  rw [targetPath, targetPath, buildTargetPath, buildTargetPath, File.join_pair, File.join_pair,
    ← htarget, File.join2_right_inj, landing_subpathAsTargetExt, landing_subpathAsTargetExt,
    subpathAsTargetExt_inj, targetStems, targetStems, ← htarget]

end EncodingItem

namespace Engine

/-- Two different files that one listing collects never have the same target path. -/
def TargetsDiffer (t : Tree) (library target : Str) : Prop :=
  ∀ f ∈ videos t library, ∀ g ∈ videos t library, f ≠ g →
    (EncodingItem.new library f target).targetPath ≠ (EncodingItem.new library g target).targetPath

def StemsDiffer (t : Tree) (library target : Str) : Prop :=
  ∀ f ∈ videos t library, ∀ g ∈ videos t library, f ≠ g →
    (EncodingItem.new library f target).targetStems ≠ (EncodingItem.new library g target).targetStems

theorem targetsDiffer_iff (t : Tree) (library target : Str) :
    TargetsDiffer t library target ↔ StemsDiffer t library target := by
  have hiff : ∀ f g : Str, (EncodingItem.new library f target).targetPath =
        (EncodingItem.new library g target).targetPath ↔
      (EncodingItem.new library f target).targetStems =
        (EncodingItem.new library g target).targetStems :=
    fun f g => EncodingItem.targetPath_eq_iff rfl
  constructor
  · intro h f hf g hg hne heq
    exact h f hf g hg hne ((hiff f g).2 heq)
  · intro h f hf g hg hne heq
    exact h f hf g hg hne ((hiff f g).1 heq)

/-- Two different files that one listing collects have target paths with different stems, that lead to
different places. -/
structure Apart (t : Tree) (library target : Str) : Prop where
  stems : StemsDiffer t library target
  places : ∀ f ∈ videos t library, ∀ g ∈ videos t library, f ≠ g → ∀ r r' : Trail,
    t.trail (EncodingItem.new library f target).targetPath = some r →
    t.trail (EncodingItem.new library g target).targetPath = some r' → r.last ≠ r'.last

/-! ## Occupied places -/

variable {τ : Type}

/-- Once the directory of its target is there, the item finds something in its place, and the target
path of the other one leads to it. -/
def Occupied (item other : EncodingItem) (w : World τ) : Prop :=
  ∃ (t : Tree) (loc : Loc), w.fs.tree.mkdir_p (File.dirname item.targetPath) = .ok t ∧
    t.stat item.targetPath = some loc ∧ t.stat other.targetPath = some loc

/-- In these turns no file of the listing is passed over for another one. -/
def NoneOccupied (t : Tree) (library target : Str) (turns : List (EncodingItem × World τ)) : Prop :=
  ∀ turn ∈ turns, ∀ f ∈ videos t library, ∀ g ∈ videos t library, f ≠ g →
    turn.1 = EncodingItem.new library f target →
    ¬ Occupied turn.1 (EncodingItem.new library g target) turn.2

/-- No method of the transcoder makes or removes a symbolic link. -/
structure KeepsLinks (tc : Transcoder τ) : Prop where
  transcode : ∀ (input output : Str) (s : FileSystem × τ), s.1.exist? output = false →
    s.1.tree.SameLinks (Each.left (tc.transcode input output s)).1.tree
  beforeTranscode : ∀ s : FileSystem × τ,
    s.1.tree.SameLinks (Each.left (tc.beforeTranscode s)).1.tree
  getScreenshot : ∀ (input output : Str) (s : FileSystem × τ),
    s.1.tree.SameLinks (Each.left (tc.getScreenshot input output s)).1.tree

section

variable {engine : Engine τ} {item other : EncodingItem} {w w' : World τ}

/-- An item that is passed over is not converted. -/
theorem noCall_of_occupied (h : Occupied item other w) :
    ∃ calls, (Each.left (engine.turn item w)).events = w.events ++ calls ∧
      ∀ input output, Event.transcode input output ∉ calls := by
  rcases h with ⟨t, loc, hdir, hstat, _⟩
  exact noCall_of_present hdir (by simp [hstat]) (turn_spec engine item w)

theorem not_occupied {t : Tree} (hsame : t.SameLinks w.fs.tree)
    (hplaces : ∀ r r' : Trail, t.trail item.targetPath = some r → t.trail other.targetPath = some r' →
      r.last ≠ r'.last) : ¬ Occupied item other w := by
  rintro ⟨u, loc, hdir, hstat, hstat'⟩
  have hsame' := Tree.sameLinks_mkdir_p (Or.inl hdir)
  rcases Tree.stat_iff.1 hstat with ⟨r, hr, _, hlast⟩
  rcases Tree.stat_iff.1 hstat' with ⟨r', hr', _, hlast'⟩
  rw [← hsame'.trail, ← hsame.trail] at hr hr'
  exact hplaces r r' hr hr' (hlast.trans hlast'.symm)

theorem sameLinks_previewed (hlinks : KeepsLinks engine.transcoder)
    {r : EStateM.Result Fault (World τ) Unit} (h : Previewed engine item w r) :
    w.fs.tree.SameLinks (Each.left r).fs.tree := by
  have hbegin := hlinks.beforeTranscode (w.fs, w.transcoder)
  cases h with
  | noDirectory hdir => exact .refl _
  | notBegun hdir hbefore => rwa [hbefore] at hbegin
  | @raised _ _ s s' hdir hbefore hshot =>
      rw [hbefore] at hbegin
      have hend := hlinks.getScreenshot item.sourcePath (engine.previewOf item) s
      rw [hshot] at hend
      exact hbegin.trans hend
  | @done _ s s' hdir hbefore hshot =>
      rw [hbefore] at hbegin
      have hend := hlinks.getScreenshot item.sourcePath (engine.previewOf item) s
      rw [hshot] at hend
      exact hbegin.trans hend

theorem sameLinks_transcoded (hlinks : KeepsLinks engine.transcoder) {ret : Bool}
    (h : Transcoded engine item w ret w') : w.fs.tree.SameLinks w'.fs.tree := by
  cases h with
  | present _ => exact .refl _
  | ran hfree hrun =>
      have hrest := hlinks.transcode item.sourcePath item.targetPath (w.fs, w.transcoder) hfree
      rwa [hrun] at hrest

/-- However a turn goes, the links stay as they are. -/
theorem sameLinks_turn (hlinks : KeepsLinks engine.transcoder)
    {r : EStateM.Result Fault (World τ) Unit} (h : Turn engine item w r) :
    w.fs.tree.SameLinks (Each.left r).fs.tree := by
  cases h with
  | skipped _ => exact .refl _
  | noDirectory hdue hdir => exact Tree.sameLinks_mkdir_p (Or.inr ⟨_, hdir⟩)
  | @raised t f s hdue hdir hfree hrun =>
      have hrest := hlinks.transcode item.sourcePath item.targetPath
        ((w.setTree t).fs, w.transcoder) hfree
      rw [hrun] at hrest
      exact (Tree.sameLinks_mkdir_p (Or.inl hdir)).trans hrest
  | failed hdue hdir hrun =>
      exact (Tree.sameLinks_mkdir_p (Or.inl hdir)).trans (sameLinks_transcoded hlinks hrun)
  | notPreviewed hdue hdir hrun hpreview =>
      have hshot := sameLinks_previewed hlinks hpreview
      exact ((Tree.sameLinks_mkdir_p (Or.inl hdir)).trans (sameLinks_transcoded hlinks hrun)).trans hshot
  | succeeded hdue hdir hrun hpreview =>
      have hshot := sameLinks_previewed hlinks hpreview
      exact ((Tree.sameLinks_mkdir_p (Or.inl hdir)).trans (sameLinks_transcoded hlinks hrun)).trans hshot

end

/-! ## From turns to a pass -/

section

variable {engine : Engine τ} {t : Tree} {library target : Str} {w w' : World τ}

/-- If the links stay as they are from turn to turn, places that are apart are never occupied. -/
theorem noneOccupied_of_apart (hapart : Apart t library target) {turns : List (EncodingItem × World τ)}
    (hlinks : ∀ turn ∈ turns, t.SameLinks turn.2.fs.tree) : NoneOccupied t library target turns := by
  intro turn hturn f hf g hg hne hitem
  rw [hitem]
  exact not_occupied (hlinks turn hturn) (hapart.places f hf g hg hne)

variable (hwrites : Writes engine.transcoder) (hstrict : Strict engine.transcoder)

include hwrites hstrict

/-- A completed turn keeps to what is along the target paths. -/
theorem grows_of_turn {paths : List Str} {item : EncodingItem} (hpath : item.targetPath ∈ paths)
    (hgrows : t.Grows (t.Along paths) w.fs.tree) (h : engine.turn item w = .ok () w') :
    t.Grows (t.Along paths) w'.fs.tree ∧ w.fs.tree.Keeps w'.fs.tree ∧
      (w'.fs.tree.stat item.targetPath).isSome = true := by
  have hspec := turn_spec engine item w
  rw [h] at hspec
  have hcan := can_of_turn hstrict hspec
  rcases (made_of_turn hwrites hcan hspec).1 with ⟨u, hdir, htree⟩
  exact hgrows.make hpath hdir (hcan u hdir) htree

/-- An item finds its place occupied if the other target is there and their paths end at one place. -/
theorem occupied_of_turn {paths : List Str} {item other : EncodingItem}
    (hgrows : t.Grows (t.Along paths) w.fs.tree) (h : engine.turn item w = .ok () w') {r r' : Trail}
    (hr : t.trail item.targetPath = some r) (hr' : t.trail other.targetPath = some r')
    (hlast : r.last = r'.last) (hother : (w.fs.tree.stat other.targetPath).isSome = true) :
    Occupied item other w := by
  have hspec := turn_spec engine item w
  rw [h] at hspec
  have hcan := can_of_turn hstrict hspec
  rcases (made_of_turn hwrites hcan hspec).1 with ⟨u, hdir, _⟩
  have hsame : t.SameLinks u := hgrows.sameLinks_along.trans (Tree.sameLinks_mkdir_p (Or.inl hdir))
  rcases Option.isSome_iff_exists.1 hother with ⟨loc, hstat⟩
  have hstat' := (Tree.mkdir_p_dirname_spec hdir).1.stat hstat
  have hloc : loc = r'.last ∧ (u.node? loc).isSome = true := by
    rcases Tree.stat_iff.1 hstat' with ⟨r₂, hr₂, hthere, rfl⟩
    rw [← hsame.trail, hr'] at hr₂
    cases hr₂
    exact ⟨rfl, hthere.last⟩
  -- something is where the item would be put, so nothing new can be put there
  cases hitem : u.stat item.targetPath with
  | some place =>
      have hplace : place = loc := by
        rcases Tree.stat_iff.1 hitem with ⟨r₁, hr₁, _, rfl⟩
        rw [← hsame.trail, hr] at hr₁
        cases hr₁
        exact hlast.trans hloc.1.symm
      exact ⟨u, loc, hdir, hplace ▸ hitem, hstat'⟩
  | none =>
      exfalso
      rcases hcan u hdir hitem with ⟨place, hcreates⟩
      have hlinks : u.SameLinks (u.touch item.targetPath) :=
        (Tree.grows_touch hcreates).sameLinks fun _ _ hlink => by cases hlink.1
      rcases Tree.stat_iff.1 (Tree.stat_touch hcreates) with ⟨r₁, hr₁, _, hplace⟩
      rw [← hlinks.trail, ← hsame.trail, hr] at hr₁
      cases hr₁
      rcases Tree.creates_spec hcreates with ⟨_, _, _, _, _, hfree⟩
      rw [← hplace, hlast, ← hloc.1] at hfree
      simp [hfree] at hloc

/-- The other target is there, so the turn of the item finds its place occupied, whenever it comes. -/
theorem exists_occupied_of_there {item other : EncodingItem} {r r' : Trail}
    (hr : t.trail item.targetPath = some r) (hr' : t.trail other.targetPath = some r')
    (hlast : r.last = r'.last) {xs : List EncodingItem} :
    ∀ {w w' : World τ}, (item ∈ xs) → (∀ x ∈ xs, x.targetPath ∈ outputs t library target) →
      t.Grows (t.Along (outputs t library target)) w.fs.tree →
      (w.fs.tree.stat other.targetPath).isSome = true → xs.forM engine.turn w = .ok () w' →
      ∃ turn ∈ Each.turns engine.turn xs w, turn.1 = item ∧ Occupied item other turn.2 := by
  induction xs with
  | nil => exact fun hitem => absurd hitem List.not_mem_nil
  | cons x xs ih =>
      intro w w' hitem hpaths hgrows hother h
      rw [Each.forM_cons] at h
      cases hturn : engine.turn x w with
      | error e w₁ => simp [hturn] at h
      | ok u w₁ =>
          rw [hturn] at h
          rcases List.mem_cons.1 hitem with rfl | hitem
          · exact ⟨(item, w), by simp [Each.turns], rfl,
              occupied_of_turn hwrites hstrict hgrows hturn hr hr' hlast hother⟩
          · rcases grows_of_turn hwrites hstrict (hpaths x (by simp)) hgrows hturn with
              ⟨hgrows₁, hkeeps, _⟩
            rcases Option.isSome_iff_exists.1 hother with ⟨loc, hstat⟩
            rcases ih hitem (fun y hy => hpaths y (by simp [hy])) hgrows₁ (by simp [hkeeps.stat hstat]) h
              with ⟨turn, hmem, hfound⟩
            exact ⟨turn, by simp [Each.turns, hturn, hmem], hfound⟩

/-- Of two items whose paths end at one place, the one that comes second finds it occupied. -/
theorem exists_occupied {a b : EncodingItem} (hne : a ≠ b) {r r' : Trail}
    (hr : t.trail a.targetPath = some r) (hr' : t.trail b.targetPath = some r')
    (hlast : r.last = r'.last) {xs : List EncodingItem} :
    ∀ {w w' : World τ}, a ∈ xs → b ∈ xs → (∀ x ∈ xs, x.targetPath ∈ outputs t library target) →
      t.Grows (t.Along (outputs t library target)) w.fs.tree → xs.forM engine.turn w = .ok () w' →
      ∃ turn ∈ Each.turns engine.turn xs w,
        (turn.1 = a ∧ Occupied a b turn.2) ∨ (turn.1 = b ∧ Occupied b a turn.2) := by
  induction xs with
  | nil => exact fun ha => absurd ha List.not_mem_nil
  | cons x xs ih =>
      intro w w' ha hb hpaths hgrows h
      rw [Each.forM_cons] at h
      cases hturn : engine.turn x w with
      | error e w₁ => simp [hturn] at h
      | ok u w₁ =>
          rw [hturn] at h
          rcases grows_of_turn hwrites hstrict (hpaths x (by simp)) hgrows hturn with
            ⟨hgrows₁, _, hthere⟩
          have hrest := fun y hy => hpaths y (List.mem_cons_of_mem x hy)
          have hbehind : ∀ turn, turn ∈ Each.turns engine.turn xs w₁ →
              turn ∈ Each.turns engine.turn (x :: xs) w := fun turn hmem => by
            simp [Each.turns, hturn, hmem]
          -- whichever comes first leaves its output for the other one to find
          rcases List.mem_cons.1 ha with hax | hax
          · rcases List.mem_cons.1 hb with hbx | hbx
            · exact absurd (hax.trans hbx.symm) hne
            · rw [← hax] at hthere
              rcases exists_occupied_of_there hwrites hstrict hr' hr hlast.symm hbx hrest hgrows₁ hthere h
                with ⟨turn, hmem, hfound⟩
              exact ⟨turn, hbehind turn hmem, Or.inr hfound⟩
          · rcases List.mem_cons.1 hb with hbx | hbx
            · rw [← hbx] at hthere
              rcases exists_occupied_of_there hwrites hstrict hr hr' hlast hax hrest hgrows₁ hthere h with
                ⟨turn, hmem, hfound⟩
              exact ⟨turn, hbehind turn hmem, Or.inl hfound⟩
            · rcases ih hax hbx hrest hgrows₁ h with ⟨turn, hmem, hfound⟩
              exact ⟨turn, hbehind turn hmem, hfound⟩

end

/-- Target paths of different files differ exactly if their stems do, and a file that is passed over is
not converted.  If the target paths lead to different places, no pass whose transcoder leaves the links
alone passes over a file for another one, however it goes; and that is necessary: with a transcoder that
writes its outputs, the targets of a completed pass differ and no file is passed over exactly if the
places are apart. -/
theorem targets_apart_iff (t : Tree) (library target : Str) :
    (TargetsDiffer t library target ↔ StemsDiffer t library target) ∧
      (∀ (engine : Engine τ) (item other : EncodingItem) (w : World τ), Occupied item other w →
        ∃ calls, (Each.left (engine.turn item w)).events = w.events ++ calls ∧
          ∀ input output, Event.transcode input output ∉ calls) ∧
      ∀ (engine : Engine τ) (w : World τ), w.fs.tree = t → w.state.toEncodeQueue = [] →
        let turns := Each.turns engine.turn (items t library target) w
        engine.doEncode library target w = (items t library target).forM engine.turn w ∧
          (KeepsLinks engine.transcoder → Apart t library target →
            NoneOccupied t library target turns) ∧
          ∀ w', Writes engine.transcoder → Strict engine.transcoder →
            engine.doEncode library target w = .ok () w' →
            ((TargetsDiffer t library target ∧ NoneOccupied t library target turns) ↔
              Apart t library target) := by
  refine ⟨targetsDiffer_iff t library target, fun engine item other w => noCall_of_occupied, ?_⟩
  rintro engine w rfl hqueue turns
  have hloop := doEncode_of_empty engine hqueue library target
  refine ⟨hloop, ?_, ?_⟩
  · intro hlinks hapart
    refine noneOccupied_of_apart hapart ?_
    refine Each.turns_invariant (P := fun v : World τ => w.fs.tree.SameLinks v.fs.tree) ?_ (.refl _)
    intro x _ v v' hv hturn
    have hspec := turn_spec engine x v
    rw [hturn] at hspec
    exact hv.trans (sameLinks_turn hlinks hspec)
  · intro w' hwrites hstrict hrun
    rw [hloop] at hrun
    have hpaths : ∀ x ∈ items w.fs.tree library target,
        x.targetPath ∈ outputs w.fs.tree library target := fun x hx => List.mem_map.2 ⟨x, hx, rfl⟩
    constructor
    · rintro ⟨hdiffer, hnone⟩
      refine ⟨(targetsDiffer_iff _ library target).1 hdiffer, ?_⟩
      intro f hf g hg hne r r' hr hr' hlast
      have hne' : EncodingItem.new library f target ≠ EncodingItem.new library g target := fun heq =>
        hdiffer f hf g hg hne (congrArg EncodingItem.targetPath heq)
      -- one of the two comes second, and is passed over
      rcases exists_occupied hwrites hstrict hne' hr hr' hlast (List.mem_map.2 ⟨f, hf, rfl⟩)
        (List.mem_map.2 ⟨g, hg, rfl⟩) hpaths (.refl _ _) hrun with
        ⟨turn, hturn, ⟨hitem, hoccupied⟩ | ⟨hitem, hoccupied⟩⟩
      · exact hnone turn hturn f hf g hg hne hitem (hitem ▸ hoccupied)
      · exact hnone turn hturn g hg f hf hne.symm hitem (hitem ▸ hoccupied)
    · intro hapart
      refine ⟨(targetsDiffer_iff _ library target).2 hapart.stems,
        noneOccupied_of_apart hapart ?_⟩
      -- the turns of a completed pass make directories and files, and no links
      have hgrows : ∀ turn ∈ Each.turns engine.turn (items w.fs.tree library target) w,
          w.fs.tree.Grows (w.fs.tree.Along (outputs w.fs.tree library target)) turn.2.fs.tree :=
        Each.turns_invariant
          (fun x hx v v' hv hturn => (grows_of_turn hwrites hstrict (hpaths x hx) hv hturn).1)
          (.refl _ _)
      exact fun turn hturn => (hgrows turn hturn).sameLinks_along

end Engine

namespace Sample

/-- `a.avi` and `a.mov` in the working directory. -/
def twinTree : Tree :=
  tree.put [] "a.mov".toList (.file true)

/-- `x/a.avi` and `y/a.avi` in `v`, and a directory `y` in `t`. -/
def apartTree : Tree :=
  let dirs := (((Tree.empty 8).put [] "v".toList (.dir true)).put ["v".toList] "x".toList
    (.dir true)).put ["v".toList] "y".toList (.dir true)
  let files := (dirs.put ["v".toList, "x".toList] "a.avi".toList (.file true)).put
    ["v".toList, "y".toList] "a.avi".toList (.file true)
  (files.put [] "t".toList (.dir true)).put ["t".toList] "y".toList (.dir true)

/-- The same, with a link `x` to `y` in `t`. -/
def linkedTree : Tree :=
  apartTree.put ["t".toList] "x".toList (.link "y".toList)

def passOver (t : Tree) : EStateM.Result Fault (World Unit) Unit :=
  (engine (transcoder 300 true)).doEncode "v".toList "t".toList (world () t)

end Sample

theorem twins_collide :
    "./a.avi".toList ∈ Engine.videos Sample.twinTree ".".toList ∧
      "./a.mov".toList ∈ Engine.videos Sample.twinTree ".".toList ∧
      (EncodingItem.new ".".toList "./a.avi".toList "iPod".toList).targetPath =
        (EncodingItem.new ".".toList "./a.mov".toList "iPod".toList).targetPath := by
  decide

/-- With the link the two target paths still differ, but one file is passed over. -/
theorem targets_apart_iff_sample :
    Engine.NoneOccupied Sample.apartTree "v".toList "t".toList
        (Each.turns (Sample.engine (Sample.transcoder 300 true)).turn
          (Engine.items Sample.apartTree "v".toList "t".toList) (Sample.world () Sample.apartTree)) ∧
      Engine.TargetsDiffer Sample.linkedTree "v".toList "t".toList ∧
      ¬ Engine.NoneOccupied Sample.linkedTree "v".toList "t".toList
        (Each.turns (Sample.engine (Sample.transcoder 300 true)).turn
          (Engine.items Sample.linkedTree "v".toList "t".toList)
          (Sample.world () Sample.linkedTree)) := by
  have hwrites := Sample.writes_transcoder
  have hstrict := Sample.strict_transcoder 300 true
  have hstems : ∀ t ∈ [Sample.apartTree, Sample.linkedTree],
      Engine.StemsDiffer t "v".toList "t".toList := by
    unfold Engine.StemsDiffer
    decide +kernel
  have hdone : ∀ t ∈ [Sample.apartTree, Sample.linkedTree],
      Sample.completes (Sample.passOver t) = true := by
    decide +kernel
  have hiff : ∀ t ∈ [Sample.apartTree, Sample.linkedTree], _ := fun t ht =>
    ((Engine.targets_apart_iff t "v".toList "t".toList).2.2
      (Sample.engine (Sample.transcoder 300 true)) (Sample.world () t) rfl rfl).2.2 _ hwrites hstrict
        (Sample.ok_of_completes (hdone t ht))
  refine ⟨((hiff Sample.apartTree (by simp)).2 ⟨hstems _ (by simp), ?_⟩).2,
    (Engine.targetsDiffer_iff _ _ _).2 (hstems _ (by simp)), fun hnone => ?_⟩
  · have hplaces : ∀ f ∈ Engine.videos Sample.apartTree "v".toList,
        ∀ g ∈ Engine.videos Sample.apartTree "v".toList, f ≠ g →
        (Sample.apartTree.trail (EncodingItem.new "v".toList f "t".toList).targetPath).map Trail.last ≠
          (Sample.apartTree.trail
            (EncodingItem.new "v".toList g "t".toList).targetPath).map Trail.last := by
      decide +kernel
    intro f hf g hg hne r r' hr hr' hlast
    refine hplaces f hf g hg hne ?_
    rw [hr, hr', Option.map_some, Option.map_some, hlast]
  · have hapart := (hiff Sample.linkedTree (by simp)).1
      ⟨(Engine.targetsDiffer_iff _ _ _).2 (hstems _ (by simp)), hnone⟩
    have hpair : "v/x/a.avi".toList ∈ Engine.videos Sample.linkedTree "v".toList ∧
        "v/y/a.avi".toList ∈ Engine.videos Sample.linkedTree "v".toList := by
      decide +kernel
    exact hapart.places _ hpair.1 _ hpair.2 (by decide)
      ⟨[[], ["t".toList], ["t".toList], ["t".toList, "y".toList]],
        ["t".toList, "y".toList, "a.mp4".toList]⟩
      ⟨[[], ["t".toList], ["t".toList, "y".toList]], ["t".toList, "y".toList, "a.mp4".toList]⟩
      (by decide +kernel) (by decide +kernel) rfl

end Yikes
