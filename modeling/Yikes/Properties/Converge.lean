import Yikes.Properties.Beneath
import Yikes.Properties.Pass
import Yikes.Ruby.View

/-!
# Converge — when a second pass has nothing to do

The outputs of a pass are videos themselves, so the next pass may list them.

* `Writes` and `Strict` are a transcoder that always writes its output, and raises where it cannot;
* a completed pass then leaves the files it found and those at the target paths of what it listed
  (`made_of_pass`), so the listing of the next pass can be read off the tree before the first one;
* `Covered` says of that tree that every path which comes into view with the outputs has a target path
  that leads somewhere by then;
* `quiet_iff_covered` is the result for a second pass.
-/

namespace Yikes

open Ruby

namespace Engine

variable {τ : Type}

/-- Wherever its output can be made, `transcode` writes more than 256 bytes there and nothing else, and
answers true; `get_screenshot` leaves the videos alone. -/
structure Writes (tc : Transcoder τ) : Prop where
  transcode : ∀ (input output : Str) (fs : FileSystem) (s : τ) (loc : Loc),
    fs.tree.creates output = some loc →
    ∃ bytes s', 256 < bytes.length ∧
      tc.transcode input output (fs, s) = .ok true (fs.write output bytes, s')
  beforeTranscode : ∀ (fs : FileSystem) (s : τ), ∃ s', tc.beforeTranscode (fs, s) = .ok () (fs, s')
  getScreenshot : ∀ (input output : Str) (fs : FileSystem) (s : τ),
    ∃ s', tc.getScreenshot input output (fs, s) = .ok () (fs, s')

/-- Where there is no output and none can be made, `transcode` raises, and writes nothing. -/
def Strict (tc : Transcoder τ) : Prop :=
  ∀ (input output : Str) (fs : FileSystem) (s : τ), fs.exist? output = false →
    fs.tree.creates output = none →
    ∃ f s', tc.transcode input output (fs, s) = .error f (fs, s')

/-! ## Quiet stretches -/

/-- Between the two worlds nothing was converted: `transcode` was not called, and no file is new. -/
structure Quiet (w w' : World τ) : Prop where
  noCall : ∃ events, w'.events = w.events ++ events ∧
    ∀ input output, Event.transcode input output ∉ events
  noFile : ∀ loc readable, w'.fs.tree.node? loc = some (.file readable) →
    w.fs.tree.node? loc = some (.file readable)

/-- Between the two worlds `transcode` was called. -/
def Called (w w' : World τ) : Prop :=
  ∃ events, w'.events = w.events ++ events ∧ ∃ input output, Event.transcode input output ∈ events

theorem Quiet.trans {w w' w'' : World τ} (h : Quiet w w') (h' : Quiet w' w'') : Quiet w w'' where
  noCall := by
    rcases h.noCall with ⟨events, heq, hnot⟩
    rcases h'.noCall with ⟨events', heq', hnot'⟩
    refine ⟨events ++ events', by simp [heq', heq], ?_⟩
    intro input output hmem
    rcases List.mem_append.1 hmem with hmem | hmem
    · exact hnot input output hmem
    · exact hnot' input output hmem
  noFile := fun loc readable hfile => h.noFile loc readable (h'.noFile loc readable hfile)

theorem Quiet.not_called {w w' : World τ} (h : Quiet w w') : ¬ Called w w' := by
  rintro ⟨events, heq, input, output, hmem⟩
  rcases h.noCall with ⟨events', heq', hnot⟩
  have hsame : events = events' := List.append_cancel_left (heq.symm.trans heq')
  exact hnot input output (hsame ▸ hmem)

theorem Called.of_left {w w' : World τ} (h : Called w w') {w'' : World τ}
    (hgrow : ∃ events, w''.events = w'.events ++ events) : Called w w'' := by
  rcases h with ⟨events, heq, input, output, hmem⟩
  rcases hgrow with ⟨events', heq'⟩
  exact ⟨events ++ events', by simp [heq', heq], input, output, by simp [hmem]⟩

theorem Called.of_right {w w' w'' : World τ} (hgrow : ∃ events, w'.events = w.events ++ events)
    (h : Called w' w'') : Called w w'' := by
  rcases hgrow with ⟨events, heq⟩
  rcases h with ⟨events', heq', input, output, hmem⟩
  exact ⟨events ++ events', by simp [heq', heq], input, output, by simp [hmem]⟩

section

variable {engine : Engine τ} {item : EncodingItem} {w w' : World τ}
  {r : EStateM.Result Fault (World τ) Unit}

/-! ## One turn -/

theorem ready_of_previewed (h : Previewed engine item w (.ok () w')) :
    engine.platform.Ready w'.settings := by
  cases h with
  | done hdir hbefore hshot => exact engine.platform.screenshotDir_again hdir

section

variable (hwrites : Writes engine.transcoder)

include hwrites

/-- The screenshot leaves the videos alone, whether it fails or not. -/
theorem fs_of_previewed (h : Previewed engine item w r) : (Each.left r).fs = w.fs := by
  rcases hwrites.beforeTranscode w.fs w.transcoder with ⟨s₁, hbefore'⟩
  rcases hwrites.getScreenshot item.sourcePath (engine.previewOf item) w.fs s₁ with ⟨s₂, hshot'⟩
  cases h with
  | noDirectory hdir => rfl
  | notBegun hdir hbefore => simp [hbefore'] at hbefore
  | raised hdir hbefore hshot =>
      rw [hbefore'] at hbefore
      cases hbefore
      simp [hshot'] at hshot
  | done hdir hbefore hshot =>
      rw [hbefore'] at hbefore
      cases hbefore
      rw [hshot'] at hshot
      cases hshot
      rfl

/-- The screenshot can only fail because its directory cannot be made. -/
theorem ok_of_previewed (hready : engine.platform.Ready w.settings)
    (h : Previewed engine item w r) : ∃ w', r = .ok () w' := by
  rcases hready with ⟨t, hready⟩
  rcases hwrites.beforeTranscode w.fs w.transcoder with ⟨s₁, hbefore'⟩
  rcases hwrites.getScreenshot item.sourcePath (engine.previewOf item) w.fs s₁ with ⟨s₂, hshot'⟩
  cases h with
  | noDirectory hdir => simp [hdir] at hready
  | notBegun hdir hbefore => simp [hbefore'] at hbefore
  | raised hdir hbefore hshot =>
      rw [hbefore'] at hbefore
      cases hbefore
      simp [hshot'] at hshot
  | done hdir hbefore hshot => exact ⟨_, rfl⟩

/-- Where the output can be made, `Engine#transcode` answers true, and the output is there. -/
theorem ok_of_transcoded {ret : Bool} {t : Tree}
    (hcan : t.stat item.targetPath = none → ∃ loc, t.creates item.targetPath = some loc)
    (h : Transcoded engine item (w.setTree t) ret w') :
    ret = true ∧
      w'.fs.tree = if (t.stat item.targetPath).isSome then t else t.touch item.targetPath := by
  cases h with
  | present hthere =>
      have hsome : (t.stat item.targetPath).isSome = true := hthere
      simp [hsome, World.setTree]
  | ran hfree hrun =>
      have hnone : (t.stat item.targetPath).isSome = false := hfree
      rcases hcan (by simpa using hnone) with ⟨loc, hcreates⟩
      rcases hwrites.transcode item.sourcePath item.targetPath (w.setTree t).fs w.transcoder loc
        hcreates with ⟨bytes, s', _, hok⟩
      have hrun' := hok.symm.trans hrun
      cases hrun'
      simp [World.leave, World.note, World.setTree, hnone, FileSystem.tree_write]

/-- Where the output of a due item can be made, a completed turn makes it, and the preview directory. -/
theorem made_of_turn
    (hcan : ∀ t, w.fs.tree.mkdir_p (File.dirname item.targetPath) = .ok t →
      t.stat item.targetPath = none → ∃ loc, t.creates item.targetPath = some loc)
    (h : Turn engine item w (.ok () w')) :
    (∃ t, w.fs.tree.mkdir_p (File.dirname item.targetPath) = .ok t ∧
        w'.fs.tree = if (t.stat item.targetPath).isSome then t else t.touch item.targetPath) ∧
      (engine.platform.Ready w'.settings ∨
        (w'.fs = w.fs ∧ w'.settings = w.settings ∧ shouldEncode w.fs item = false)) := by
  cases h with
  | skipped hskip =>
      have hthere : (w.fs.tree.stat item.targetPath).isSome = true := (shouldEncode_eq_false hskip).1
      rcases Option.isSome_iff_exists.1 hthere with ⟨loc, hstat⟩
      exact ⟨⟨w.fs.tree, Tree.mkdir_p_of_stat hstat, by simp [hthere, World.note]⟩,
        Or.inr ⟨rfl, rfl, hskip⟩⟩
  | failed hdue hdir hrun =>
      have hret := (ok_of_transcoded hwrites (hcan _ hdir) hrun).1
      cases hret
  | succeeded hdue hdir hrun hpreview =>
      have hfs := fs_of_previewed hwrites hpreview
      rw [Each.left_ok] at hfs
      have hready := ready_of_previewed hpreview
      refine ⟨⟨_, hdir, ?_⟩, Or.inl hready⟩
      rw [← (ok_of_transcoded hwrites (hcan _ hdir) hrun).2, ← hfs]
      rfl

omit hwrites in
/-- A turn that ends normally had an output, or could make it. -/
theorem can_of_turn (hstrict : Strict engine.transcoder) (h : Turn engine item w (.ok () w')) :
    ∀ t, w.fs.tree.mkdir_p (File.dirname item.targetPath) = .ok t →
      t.stat item.targetPath = none → ∃ loc, t.creates item.targetPath = some loc := by
  intro t hdir hnone
  have hran : ∀ {ret : Bool} {v : World τ}, Transcoded engine item (w.setTree t) ret v →
      ∃ loc, t.creates item.targetPath = some loc := by
    intro ret v hrun
    cases hrun with
    | present hthere =>
        have hsome : (t.stat item.targetPath).isSome = true := hthere
        simp [hnone] at hsome
    | ran hfree hrun =>
        cases hcreates : t.creates item.targetPath with
        | some loc => exact ⟨loc, rfl⟩
        | none =>
            rcases hstrict item.sourcePath item.targetPath (w.setTree t).fs w.transcoder hfree hcreates
              with ⟨f, s', herror⟩
            have hnot := herror.symm.trans hrun
            cases hnot
  cases h with
  | skipped hskip =>
      rcases Option.isSome_iff_exists.1 (shouldEncode_eq_false hskip).1 with ⟨loc, hstat⟩
      have ht := (Tree.mkdir_p_of_stat hstat).symm.trans hdir
      cases ht
      simp [hstat] at hnone
  | failed hdue hdir' hrun =>
      rw [hdir] at hdir'
      cases hdir'
      exact hran hrun
  | succeeded hdue hdir' hrun hpreview =>
      rw [hdir] at hdir'
      cases hdir'
      exact hran hrun

/-- Then nothing is converted. -/
theorem quiet_of_present {t : Tree}
    (hdir : w.fs.tree.mkdir_p (File.dirname item.targetPath) = .ok t)
    (hthere : (t.stat item.targetPath).isSome = true) (h : Turn engine item w r) :
    Quiet w (Each.left r) ∧ (Each.left r).fs.tree = t := by
  have htree : (Each.left r).fs.tree = t := by
    rcases turn_of_present hdir hthere h with ⟨rfl, ht⟩ | ⟨r', hpreview, hr⟩
    · exact ht
    · have hfs : (Each.left r').fs.tree = t := by
        rw [fs_of_previewed hwrites hpreview]
        rfl
      rcases hr with ⟨f, w', rfl, rfl⟩ | ⟨w', rfl, rfl⟩
      · exact hfs
      · exact hfs
  refine ⟨⟨noCall_of_present hdir hthere h, ?_⟩, htree⟩
  intro loc readable hfile
  rw [htree] at hfile
  exact Tree.file_of_mkdir_p (Or.inl hdir) hfile

/-- In such a turn only the preview can fail. -/
theorem ok_of_present {t : Tree} (hdir : w.fs.tree.mkdir_p (File.dirname item.targetPath) = .ok t)
    (hthere : (t.stat item.targetPath).isSome = true) (hready : engine.platform.Ready w.settings)
    (h : Turn engine item w r) : ∃ w', r = .ok () w' ∧ engine.platform.Ready w'.settings := by
  rcases turn_of_present hdir hthere h with ⟨rfl, _⟩ | ⟨r', hpreview, hr⟩
  · exact ⟨_, rfl, hready⟩
  · have hready' : engine.platform.Ready (w.setTree t).settings := hready
    rcases ok_of_previewed hwrites hready' hpreview with ⟨w', rfl⟩
    rcases hr with ⟨f, w'', heq, _⟩ | ⟨w'', heq, rfl⟩
    · cases heq
    · cases heq
      have hafter := ready_of_previewed hpreview
      exact ⟨_, rfl, hafter⟩

omit hwrites in
theorem called_of_transcoded {ret : Bool} (hmissing : w.fs.exist? item.targetPath = false)
    (h : Transcoded engine item w ret w') : Called w w' := by
  rcases h.calls with ⟨_, calls, hcalls, ⟨hthere, _⟩ | ⟨_, hone⟩⟩
  · simp [hmissing] at hthere
  · exact ⟨calls, hcalls, item.sourcePath, item.targetPath, by simp [hone]⟩

omit hwrites in
/-- The target is missing although its directory is there: `transcode` is called. -/
theorem called_of_missing {t : Tree} (hnone : w.fs.tree.stat item.targetPath = none)
    (hdir : w.fs.tree.mkdir_p (File.dirname item.targetPath) = .ok t)
    (hmissing : (t.stat item.targetPath).isSome = false) (h : Turn engine item w r) :
    Called w (Each.left r) := by
  have hfree : (w.setTree t).fs.exist? item.targetPath = false := hmissing
  have hfrom : ∀ {w'' : World τ}, Called (w.setTree t) w'' → Called w w'' := id
  cases h with
  | skipped hskip =>
      have hthere := (shouldEncode_eq_false hskip).1
      simp [FileSystem.exist?, hnone] at hthere
  | noDirectory hdue hdir' => simp [hdir] at hdir'
  | raised hdue hdir' hfree' hrun => exact ⟨_, rfl, _, _, List.mem_singleton.2 rfl⟩
  | failed hdue hdir' hrun =>
      rw [hdir] at hdir'
      cases hdir'
      exact (hfrom (called_of_transcoded hfree hrun)).of_left ⟨_, rfl⟩
  | notPreviewed hdue hdir' hrun hpreview =>
      rw [hdir] at hdir'
      cases hdir'
      rcases hpreview.events with ⟨_, calls, hcalls, _⟩
      exact (hfrom (called_of_transcoded hfree hrun)).of_left ⟨calls, hcalls⟩
  | succeeded hdue hdir' hrun hpreview =>
      rw [hdir] at hdir'
      cases hdir'
      refine (hfrom (called_of_transcoded hfree hrun)).of_left
        ⟨[.screenshot item.sourcePath (engine.previewOf item), .succeeded item], ?_⟩
      simp [World.encodeSucceeded, hpreview.of_ok.2]

/-- A path that ends in `.mp4`, and does not lead up: making its directory does not make it. -/
def Onward (path : Str) : Prop :=
  '.' :: EncodingItem.mp4 <:+ path ∧ ['.', '.'] ∉ File.names path

omit hwrites in
/-- If such a target is missing, a turn that ends normally calls `transcode`. -/
theorem called_of_turn (honward : Onward item.targetPath)
    (hnone : w.fs.tree.stat item.targetPath = none) (h : Turn engine item w (.ok () w')) :
    Called w w' := by
  cases hdir : w.fs.tree.mkdir_p (File.dirname item.targetPath) with
  | error e =>
      cases h with
      | skipped hskip =>
          have hthere := (shouldEncode_eq_false hskip).1
          simp [FileSystem.exist?, hnone] at hthere
      | failed hdue hdir' hrun => simp [hdir] at hdir'
      | succeeded hdue hdir' hrun hpreview => simp [hdir] at hdir'
  | ok t =>
      have hmissing : t.stat item.targetPath = none :=
        Tree.stat_of_mkdir_p_dirname honward.2 (validName_of_mp4_suffix honward.1)
          (basename_of_mp4_suffix honward.1).1 hnone hdir
      exact called_of_missing hnone hdir (by simp [hmissing]) h

/-! ## A whole pass -/

/-- The loop makes what is along the paths it has outputs for, and every item has its target in the
end. -/
theorem made_of_loop (hstrict : Strict engine.transcoder) {t : Tree} {paths : List Str}
    (xs : List EncodingItem) :
    ∀ {w w' : World τ}, (∀ x ∈ xs, x.targetPath ∈ paths) →
      Tree.Grows t (Tree.Along t paths) w.fs.tree → xs.forM engine.turn w = .ok () w' →
      Tree.Grows t (Tree.Along t paths) w'.fs.tree ∧ Tree.Keeps w.fs.tree w'.fs.tree ∧
        ∀ x ∈ xs, (w'.fs.tree.stat x.targetPath).isSome = true := by
  induction xs with
  | nil =>
      intro w w' _ hgrows h
      cases h
      exact ⟨hgrows, .refl _, by simp⟩
  | cons x xs ih =>
      intro w w' hpaths hgrows h
      have hspec := turn_spec engine x w
      rw [Each.forM_cons] at h
      cases hturn : engine.turn x w with
      | error e w₁ => simp [hturn] at h
      | ok u w₁ =>
          rw [hturn] at h hspec
          have hcan := can_of_turn hstrict hspec
          rcases (made_of_turn hwrites hcan hspec).1 with ⟨v, hdir, htree⟩
          rcases hgrows.make (hpaths x (by simp)) hdir (hcan v hdir) htree with ⟨hgrows₁, hkeeps₁, hx⟩
          rcases ih (fun y hy => hpaths y (by simp [hy])) hgrows₁ h with ⟨hgrows', hkeeps', hxs⟩
          refine ⟨hgrows', hkeeps₁.trans hkeeps', List.forall_mem_cons.2 ⟨?_, hxs⟩⟩
          rcases Option.isSome_iff_exists.1 hx with ⟨loc, hstat⟩
          simp [hkeeps'.stat hstat]

/-- Unless it skipped everything, a completed pass leaves the preview directory. -/
theorem ready_of_loop (hstrict : Strict engine.transcoder) (xs : List EncodingItem) :
    ∀ {w w' : World τ}, xs.forM engine.turn w = .ok () w' →
      engine.platform.Ready w'.settings ∨
        (w'.fs = w.fs ∧ w'.settings = w.settings ∧ ∀ x ∈ xs, shouldEncode w.fs x = false) := by
  induction xs with
  | nil =>
      intro w w' h
      cases h
      exact Or.inr ⟨rfl, rfl, by simp⟩
  | cons x xs ih =>
      intro w w' h
      have hspec := turn_spec engine x w
      rw [Each.forM_cons] at h
      cases hturn : engine.turn x w with
      | error e w₁ => simp [hturn] at h
      | ok u w₁ =>
          rw [hturn] at h hspec
          rcases ih h with hready | ⟨hfs, hsettings, hskip⟩
          · exact Or.inl hready
          · rcases (made_of_turn hwrites (can_of_turn hstrict hspec) hspec).2 with
              hready | ⟨hfs₁, hsettings₁, hskip₁⟩
            · left
              rw [hsettings]
              exact hready
            · right
              rw [hfs₁] at hfs hskip
              exact ⟨hfs, hsettings.trans hsettings₁, List.forall_mem_cons.2 ⟨hskip₁, hskip⟩⟩

/-- The loop converts nothing if all targets are there; then only a preview can fail. -/
theorem quiet_of_targets (xs : List EncodingItem) :
    ∀ w : World τ, (∀ x ∈ xs, (w.fs.tree.stat x.targetPath).isSome = true) →
      engine.platform.Ready w.settings ∨ (∀ x ∈ xs, shouldEncode w.fs x = false) →
      ∃ w', xs.forM engine.turn w = .ok () w' ∧ Quiet w w' ∧ w'.fs.tree = w.fs.tree := by
  induction xs with
  | nil =>
      intro w _ _
      exact ⟨w, rfl, ⟨⟨[], by simp, by simp⟩, fun _ _ h => h⟩, rfl⟩
  | cons x xs ih =>
      intro w hthere hready
      have hspec := turn_spec engine x w
      rcases Option.isSome_iff_exists.1 (hthere x (by simp)) with ⟨loc, hstat⟩
      have hdir := Tree.mkdir_p_of_stat hstat
      have hfirst : ∃ w₁, engine.turn x w = .ok () w₁ ∧
          (engine.platform.Ready w₁.settings ∨ ∀ y ∈ xs, shouldEncode w₁.fs y = false) := by
        rcases hready with hready | hskip
        · rcases ok_of_present hwrites hdir (hthere x (by simp)) hready hspec with ⟨w₁, hturn, hready₁⟩
          exact ⟨w₁, hturn, Or.inl hready₁⟩
        · have hturn := Turn.eq (.skipped (hskip x (by simp)) : Turn engine x w _)
          exact ⟨_, hturn, Or.inr fun y hy => hskip y (by simp [hy])⟩
      rcases hfirst with ⟨w₁, hturn, hready₁⟩
      rw [hturn] at hspec
      rcases quiet_of_present hwrites hdir (hthere x (by simp)) hspec with ⟨hquiet, htree⟩
      rw [Each.left_ok] at hquiet htree
      rw [← htree] at hthere
      rcases ih w₁ (fun y hy => hthere y (by simp [hy])) hready₁ with ⟨w', hrun, hquiet', htree'⟩
      exact ⟨w', by rw [Each.forM_cons_ok xs hturn, hrun], hquiet.trans hquiet', htree'.trans htree⟩

/-- If such a loop ends normally, and converted nothing, all targets were there. -/
theorem targets_of_quiet (xs : List EncodingItem) :
    ∀ {w w' : World τ}, (∀ x ∈ xs, Onward x.targetPath) → xs.forM engine.turn w = .ok () w' →
      Quiet w w' → ∀ x ∈ xs, (w.fs.tree.stat x.targetPath).isSome = true := by
  induction xs with
  | nil => simp
  | cons x xs ih =>
      intro w w' honward h hquiet
      have hspec := turn_spec engine x w
      rw [Each.forM_cons] at h
      cases hturn : engine.turn x w with
      | error e w₁ => simp [hturn] at h
      | ok u w₁ =>
          rw [hturn] at h hspec
          dsimp only at h
          rcases events_loop engine xs w₁ with ⟨events, hevents⟩
          rw [h, Each.left_ok] at hevents
          cases hstat : w.fs.tree.stat x.targetPath with
          | none =>
              have hcalled := (called_of_turn (honward x (by simp)) hstat hspec).of_left ⟨_, hevents⟩
              exact absurd hcalled hquiet.not_called
          | some loc =>
              -- this turn left the files alone, so the rest found what was there
              have hdir := Tree.mkdir_p_of_stat hstat
              rcases quiet_of_present hwrites hdir (by simp [hstat]) hspec with ⟨⟨hcalls, _⟩, htree⟩
              rw [Each.left_ok] at hcalls htree
              have hrest : Quiet w₁ w' := by
                refine ⟨⟨events, hevents, ?_⟩, fun loc readable hfile => ?_⟩
                · intro input output hmem
                  rcases hcalls with ⟨first, hfirst, _⟩
                  exact hquiet.not_called ⟨first ++ events, by
                    rw [hevents, hfirst, List.append_assoc], input, output, by simp [hmem]⟩
                · rw [htree]
                  exact hquiet.noFile loc readable hfile
              have hthere := ih (fun y hy => honward y (by simp [hy])) h hrest
              rw [htree] at hthere
              exact List.forall_mem_cons.2 ⟨by simp [hstat], hthere⟩

end

end

/-! ## A second pass -/

/-- The target paths of what a pass lists. -/
def outputs (t : Tree) (library target : Str) : List Str :=
  (items t library target).map EncodingItem.targetPath

/-- Take a path that leads nowhere in the tree, that the pattern of the library can show, with the
extension of a video.  If it leads to a file once the outputs are made, then its own target path, too,
leads somewhere once they are made. -/
def Covered (t : Tree) (library target : Str) : Prop :=
  ∀ x loc, t.stat x = none → AllowedFiletypes.contains (File.extname x).downcase = true →
    Dir.CanShow t (File.join [library, "**".toList, "*".toList]) x →
    t.WouldLead (outputs t library target) x loc →
    (t.node? loc = some (.file true) ∨ (t.node? loc = none ∧
      t.Ended (outputs t library target) loc ∧ ¬ t.Passed (outputs t library target) loc)) →
    ∃ loc', t.WouldLead (outputs t library target) (EncodingItem.new library x target).targetPath loc'

theorem made_of_pass {engine : Engine τ} {w w' : World τ} (hwrites : Writes engine.transcoder)
    (hstrict : Strict engine.transcoder) (hqueue : w.state.toEncodeQueue = []) {library target : Str}
    (hrun : engine.doEncode library target w = .ok () w') :
    w.fs.tree.Made (outputs w.fs.tree library target) w'.fs.tree := by
  rw [doEncode_of_empty engine hqueue] at hrun
  rcases made_of_loop hwrites hstrict (items w.fs.tree library target)
    (fun x hx => List.mem_map.2 ⟨x, hx, rfl⟩) (.refl _ _) hrun with ⟨hgrows, _, hthere⟩
  refine ⟨hgrows, ?_⟩
  intro path hpath
  rcases List.mem_map.1 hpath with ⟨x, hx, rfl⟩
  rcases Option.isSome_iff_exists.1 (hthere x hx) with ⟨loc, hstat⟩
  rcases Tree.stat_iff.1 hstat with ⟨r, hr, hr', _⟩
  exact ⟨r, by rw [hgrows.sameLinks_along.trail, hr], hr'⟩

/-- `Covered` is what a listing of the tree that was left finds. -/
theorem covered_iff {t u : Tree} {library target : Str}
    (hmade : t.Made (outputs t library target) u)
    (hlibrary : library = ['.'] ∨ File.isAbsolute library = true) :
    Covered t library target ↔
      ∀ x ∈ items u library target, (u.stat x.targetPath).isSome = true := by
  have hlinks := hmade.sameLinks_along
  constructor
  · intro hcovered item hitem
    rcases List.mem_map.1 hitem with ⟨x, hx, rfl⟩
    rcases List.mem_filter.1 hx with ⟨hfile, hext⟩
    rcases List.mem_filter.1 hfile with ⟨hshown, hfile⟩
    rcases filelike_iff.1 hfile with ⟨loc, hstat, hnode⟩
    have hshow := (Dir.canShow_congr hlinks).2 (Dir.canShow_of_mem_glob hshown)
    cases hold : t.stat x with
    | none =>
        rcases hcovered x loc hold hext hshow (hmade.stat_iff.1 hstat) (hmade.file_iff.1 hnode) with
          ⟨loc', hlead⟩
        simp [hmade.stat_iff.2 hlead]
    -- it was listed before, so its target was made
    | some loc' =>
        have hlisted : EncodingItem.new library x target ∈ items t library target := by
          refine List.mem_map.2 ⟨x, List.mem_filter.2 ⟨List.mem_filter.2 ⟨?_, ?_⟩, hext⟩, rfl⟩
          · exact (Dir.mem_glob_iff hlibrary hold).2 hshow
          · have hsame : loc' = loc := Option.some.inj ((hmade.keeps.stat hold).symm.trans hstat)
            rcases Tree.stat_iff.1 hold with ⟨r, _, hthere, rfl⟩
            rcases Option.isSome_iff_exists.1 hthere.last with ⟨node, hnode'⟩
            have hkept := hmade.kept _ node hnode'
            rw [hsame, hnode] at hkept
            rw [← Option.some.inj hkept] at hnode'
            exact filelike_iff.2 ⟨_, hold, hnode'⟩
        rcases hmade.there _ (List.mem_map.2 ⟨_, hlisted, rfl⟩) with ⟨r, hr, hthere⟩
        rw [hlinks.trail] at hr
        simp [Tree.stat_iff.2 ⟨r, hr, hthere, rfl⟩]
  · intro htargets x loc _ hext hshow hlead hfile
    have hstat := hmade.stat_iff.2 hlead
    have hnode := hmade.file_iff.2 hfile
    have hlisted : EncodingItem.new library x target ∈ items u library target := by
      refine List.mem_map.2 ⟨x, List.mem_filter.2 ⟨List.mem_filter.2 ⟨?_, ?_⟩, hext⟩, rfl⟩
      · exact (Dir.mem_glob_iff hlibrary hstat).2 ((Dir.canShow_congr hlinks).1 hshow)
      · exact filelike_iff.2 ⟨loc, hstat, hnode⟩
    rcases Option.isSome_iff_exists.1 (htargets _ hlisted) with ⟨loc', hstat'⟩
    exact ⟨loc', hmade.stat_iff.1 hstat'⟩

theorem onward_of_mem_items {t : Tree} {library target : Str} (hplain : Glob.Plain library)
    (htarget : ['.', '.'] ∉ File.names target) :
    ∀ item ∈ items t library target, Onward item.targetPath := by
  intro item hitem
  rcases List.mem_map.1 hitem with ⟨x, hx, rfl⟩
  have hpath : (EncodingItem.new library x target).targetPath =
      File.join2 target (EncodingItem.new library x target).subpathTarget := rfl
  have hsub : ['.', '.'] ∉ File.names (EncodingItem.new library x target).subpathTarget :=
    no_parent_subpathTarget hplain hx
  refine ⟨(mp4_suffix_subpathTarget hx).trans (hpath ▸ File.suffix_join2 _ _), ?_⟩
  rw [hpath, File.names_join2]
  simp [htarget, hsub]

/-- After a completed pass, a second one on what it left ends normally, calls `transcode` for no item
and makes no file and no directory, if and only if every output that comes into view is covered.  That
it makes no directory goes without saying when no target path leads up, as for a library that is read as
it is written. -/
theorem quiet_iff_covered (engine : Engine τ) (hwrites : Writes engine.transcoder)
    (hstrict : Strict engine.transcoder) {library target : Str}
    (hlibrary : library = ['.'] ∨ File.isAbsolute library = true) {w w' v : World τ}
    (hqueue : w.state.toEncodeQueue = []) (hfirst : engine.doEncode library target w = .ok () w')
    (hfs : v.fs = w'.fs) (hsettings : v.settings = w'.settings)
    (hqueue' : v.state.toEncodeQueue = []) :
    ((∃ v', engine.doEncode library target v = .ok () v' ∧ Quiet v v' ∧ v'.fs.tree = v.fs.tree) ↔
        Covered w.fs.tree library target) ∧
      (Glob.Plain library → ['.', '.'] ∉ File.names target →
        ((∃ v', engine.doEncode library target v = .ok () v' ∧ Quiet v v') ↔
          Covered w.fs.tree library target)) := by
  have hmade := made_of_pass hwrites hstrict hqueue hfirst
  rw [← hfs] at hmade
  rw [covered_iff hmade hlibrary, doEncode_of_empty engine hqueue']
  have hback : (∀ x ∈ items v.fs.tree library target, (v.fs.tree.stat x.targetPath).isSome = true) →
      ∃ v', (items v.fs.tree library target).forM engine.turn v = .ok () v' ∧ Quiet v v' ∧
        v'.fs.tree = v.fs.tree := by
    intro htargets
    refine quiet_of_targets hwrites _ v htargets ?_
    -- the first pass has seen to the previews, or has skipped everything, as the second one will
    rw [doEncode_of_empty engine hqueue] at hfirst
    rcases ready_of_loop hwrites hstrict _ hfirst with hready | ⟨hsame, _, hskip⟩
    · rw [← hsettings] at hready
      exact Or.inl hready
    · rw [← hsame, ← hfs] at hskip
      exact Or.inr hskip
  constructor
  · refine ⟨?_, hback⟩
    rintro ⟨v', hsecond, _, htree⟩ x hx
    have hthere := (made_of_loop hwrites hstrict (items v.fs.tree library target)
      (fun x hx => List.mem_map.2 ⟨x, hx, rfl⟩) (.refl _ _) hsecond).2.2 x hx
    rwa [htree] at hthere
  · intro hplain htarget
    constructor
    · rintro ⟨v', hsecond, hquiet⟩
      exact targets_of_quiet hwrites _ (onward_of_mem_items hplain htarget) hsecond hquiet
    · intro htargets
      rcases hback htargets with ⟨v', hsecond, hquiet, _⟩
      exact ⟨v', hsecond, hquiet⟩

end Engine

namespace Sample

open Engine

theorem writes_transcoder : Writes (transcoder 300 true) where
  transcode := by
    intro _ output fs s loc hcreates
    refine ⟨List.replicate 300 0, (), ?_, ?_⟩
    · rw [List.length_replicate]
      decide
    · simp only [transcoder, hcreates]
  beforeTranscode := fun _ _ => ⟨(), rfl⟩
  getScreenshot := fun _ _ _ _ => ⟨(), rfl⟩

theorem strict_transcoder (size : Nat) (ret : Bool) : Strict (transcoder size ret) := by
  intro _ output fs s _ hcreates
  exact ⟨.errno .ENOENT, (), by simp [transcoder, hcreates]⟩

/-- A pass over the working directory. -/
def pass (target : Str) (w : World Unit) : EStateM.Result Fault (World Unit) Unit :=
  (engine (transcoder 300 true)).doEncode ".".toList target w

/-- What a pass over the small library leaves. -/
def afterPass (target : Str) : World Unit :=
  Each.left (pass target (world () tree))

theorem pass_eq {target : Str} (h : completes (pass target (world () tree)) = true) :
    (engine (transcoder 300 true)).doEncode ".".toList target (world () tree) =
      .ok () (afterPass target) :=
  ok_of_completes h

/-- With the directories of a run without arguments the output of the first pass is converted by the
second one. -/
theorem called_again :
    Called (afterPass "iPod".toList) (Each.left (pass "iPod".toList (afterPass "iPod".toList))) := by
  rcases events_loop (engine (transcoder 300 true))
    (items (afterPass "iPod".toList).fs.tree ".".toList "iPod".toList) (afterPass "iPod".toList) with
    ⟨events, hevents⟩
  have hqueue : (afterPass "iPod".toList).state.toEncodeQueue = [] := by decide +kernel
  rw [← doEncode_of_empty _ hqueue] at hevents
  refine ⟨events, hevents, "./iPod/a.mp4".toList, "iPod/iPod/a.mp4".toList, ?_⟩
  have hafter : Event.transcode "./iPod/a.mp4".toList "iPod/iPod/a.mp4".toList ∈
      (Each.left (pass "iPod".toList (afterPass "iPod".toList))).events := by
    decide +kernel
  have hbefore : Event.transcode "./iPod/a.mp4".toList "iPod/iPod/a.mp4".toList ∉
      (afterPass "iPod".toList).events := by
    decide +kernel
  have hsplit := hafter
  rw [pass, hevents] at hsplit
  exact (List.mem_append.1 hsplit).resolve_left hbefore

end Sample

/-- Behind a hidden directory the outputs are not in view; those of a run without arguments are, and
are not covered. -/
theorem quiet_iff_covered_sample :
    (∃ v', Sample.pass ".iPod".toList (Sample.afterPass ".iPod".toList) = .ok () v' ∧
      Engine.Quiet (Sample.afterPass ".iPod".toList) v' ∧
      v'.fs.tree = (Sample.afterPass ".iPod".toList).fs.tree) ∧
    ¬ Engine.Covered Sample.tree ".".toList "iPod".toList := by
  have hdot : ".".toList = ['.'] ∨ File.isAbsolute ".".toList = true := Or.inl rfl
  have hwrites := Sample.writes_transcoder
  have hstrict := Sample.strict_transcoder 300 true
  have hqueue : (Sample.world () Sample.tree).state.toEncodeQueue = [] := rfl
  constructor
  · have hdone : Sample.completes (Sample.pass ".iPod".toList (Sample.world () Sample.tree)) = true := by
      decide +kernel
    have hqueue' : (Sample.afterPass ".iPod".toList).state.toEncodeQueue = [] := by
      decide +kernel
    have hmade : Sample.tree.Made (Engine.outputs Sample.tree ".".toList ".iPod".toList)
        (Sample.afterPass ".iPod".toList).fs.tree :=
      Engine.made_of_pass hwrites hstrict hqueue (Sample.pass_eq hdone)
    have hcovered : Engine.Covered Sample.tree ".".toList ".iPod".toList := by
      refine (Engine.covered_iff hmade hdot).2 ?_
      decide +kernel
    exact (Engine.quiet_iff_covered (Sample.engine (Sample.transcoder 300 true)) hwrites hstrict hdot
      hqueue (Sample.pass_eq hdone) rfl rfl hqueue').1.2 hcovered
  · intro hcovered
    have hdone : Sample.completes (Sample.pass "iPod".toList (Sample.world () Sample.tree)) = true := by
      decide +kernel
    have hqueue' : (Sample.afterPass "iPod".toList).state.toEncodeQueue = [] := by
      decide +kernel
    rcases ((Engine.quiet_iff_covered (Sample.engine (Sample.transcoder 300 true)) hwrites hstrict hdot
      hqueue (Sample.pass_eq hdone) rfl rfl hqueue').2 (by decide) (by decide)).2 hcovered with
      ⟨v', hsecond, hquiet⟩
    have hcalled := Sample.called_again
    rw [Sample.pass, hsecond] at hcalled
    exact hquiet.not_called hcalled

/-- With the directories of a run without arguments the second pass converts the output of the first
one, `iPod/a.mp4`, to `iPod/iPod/a.mp4`. -/
theorem defaults_convert_again :
    Engine.Writes (Sample.transcoder 300 true) ∧
      Sample.pass "iPod".toList (Sample.world () Sample.tree) =
        .ok () (Sample.afterPass "iPod".toList) ∧
      ¬ Engine.Quiet (Sample.afterPass "iPod".toList)
        (Each.left (Sample.pass "iPod".toList (Sample.afterPass "iPod".toList))) := by
  have hdone : Sample.completes (Sample.pass "iPod".toList (Sample.world () Sample.tree)) = true := by
    decide +kernel
  exact ⟨Sample.writes_transcoder, Sample.ok_of_completes hdone,
    fun hquiet => hquiet.not_called Sample.called_again⟩

end Yikes
