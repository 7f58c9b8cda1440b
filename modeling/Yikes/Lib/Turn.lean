import Yikes.Lib.Engine
import Yikes.Ruby.Each

/-!
# Turn — what one round of a pass can do

* `Previewed` and `Transcoded` are the ways the screenshot and `Engine#transcode` can go, `Turn` the
  ways a whole round of the loop of `do_encode` can;
* `turn_spec` and its converse `Turn.eq` are the only places where the methods of the engine are
  unfolded: every later result about a pass is a case analysis of `Turn`.
-/

namespace Yikes
namespace Engine

open Ruby

variable {τ : Type} (engine : Engine τ) (item : EncodingItem)

/-- Where the screenshot of an item is put. -/
def previewOf : Str :=
  File.join [engine.platform.previewPath, item.screenshotSubpath engine.md5]

/-- The ways `preview` can go from a world. -/
inductive Previewed (w : World τ) : EStateM.Result Fault (World τ) Unit → Prop
  | noDirectory {err : Errno} {t : Tree}
      (hdir : engine.platform.screenshotDir w.settings = .error (err, t)) :
      Previewed w (.error (.errno err) { w with settings := t })
  | notBegun {t : Tree} {f : Fault} {s : FileSystem × τ}
      (hdir : engine.platform.screenshotDir w.settings = .ok (engine.platform.previewPath, t))
      (hbefore : engine.transcoder.beforeTranscode (w.fs, w.transcoder) = .error f s) :
      Previewed w (.error f ({ w with settings := t }.leave s))
  | raised {t : Tree} {f : Fault} {s s' : FileSystem × τ}
      (hdir : engine.platform.screenshotDir w.settings = .ok (engine.platform.previewPath, t))
      (hbefore : engine.transcoder.beforeTranscode (w.fs, w.transcoder) = .ok () s)
      (hshot : engine.transcoder.getScreenshot item.sourcePath (engine.previewOf item) s =
        .error f s') :
      Previewed w (.error f
        ((({ w with settings := t }.leave s).note
          (.screenshot item.sourcePath (engine.previewOf item))).leave s'))
  | done {t : Tree} {s s' : FileSystem × τ}
      (hdir : engine.platform.screenshotDir w.settings = .ok (engine.platform.previewPath, t))
      (hbefore : engine.transcoder.beforeTranscode (w.fs, w.transcoder) = .ok () s)
      (hshot : engine.transcoder.getScreenshot item.sourcePath (engine.previewOf item) s =
        .ok () s') :
      Previewed w (.ok ()
        ((({ w with settings := t }.leave s).note
          (.screenshot item.sourcePath (engine.previewOf item))).leave s'))

/-- The ways `Engine#transcode` can return a value. -/
inductive Transcoded (w : World τ) : Bool → World τ → Prop
  | present (hthere : w.fs.exist? item.targetPath = true) : Transcoded w true w
  | ran {ret : Bool} {s : FileSystem × τ} (hfree : w.fs.exist? item.targetPath = false)
      (hrun : engine.transcoder.transcode item.sourcePath item.targetPath (w.fs, w.transcoder) =
        .ok ret s) :
      Transcoded w ret ((w.note (.transcode item.sourcePath item.targetPath)).leave s)

/-- The ways a round can go from a world. -/
inductive Turn (w : World τ) : EStateM.Result Fault (World τ) Unit → Prop
  | skipped (hskip : shouldEncode w.fs item = false) : Turn w (.ok () (w.note (.skipped item)))
  | noDirectory {err : Errno} {t : Tree} (hdue : shouldEncode w.fs item = true)
      (hdir : w.fs.tree.mkdir_p (File.dirname item.targetPath) = .error (err, t)) :
      Turn w (.error (.errno err) (w.setTree t))
  | raised {t : Tree} {f : Fault} {s : FileSystem × τ} (hdue : shouldEncode w.fs item = true)
      (hdir : w.fs.tree.mkdir_p (File.dirname item.targetPath) = .ok t)
      (hfree : (w.setTree t).fs.exist? item.targetPath = false)
      (hrun : engine.transcoder.transcode item.sourcePath item.targetPath
        ((w.setTree t).fs, w.transcoder) = .error f s) :
      Turn w (.error f (((w.setTree t).note (.transcode item.sourcePath item.targetPath)).leave s))
  | failed {t : Tree} {w' : World τ} (hdue : shouldEncode w.fs item = true)
      (hdir : w.fs.tree.mkdir_p (File.dirname item.targetPath) = .ok t)
      (hrun : Transcoded engine item (w.setTree t) false w') :
      Turn w (.ok () (w'.encodeFailed item))
  | notPreviewed {t : Tree} {w' w'' : World τ} {f : Fault} (hdue : shouldEncode w.fs item = true)
      (hdir : w.fs.tree.mkdir_p (File.dirname item.targetPath) = .ok t)
      (hrun : Transcoded engine item (w.setTree t) true w')
      (hpreview : Previewed engine item w' (.error f w'')) :
      Turn w (.error f w'')
  | succeeded {t : Tree} {w' w'' : World τ} (hdue : shouldEncode w.fs item = true)
      (hdir : w.fs.tree.mkdir_p (File.dirname item.targetPath) = .ok t)
      (hrun : Transcoded engine item (w.setTree t) true w')
      (hpreview : Previewed engine item w' (.ok () w'')) :
      Turn w (.ok () (w''.encodeSucceeded item))

/-! ## The methods go these ways -/

theorem preview_spec (w : World τ) : Previewed engine item w (engine.preview item w) := by
  cases hdir : engine.platform.screenshotDir w.settings with
  | error e =>
      -- `settings_dir` or `screenshot_dir` raises
      have hpath : engine.screenshotPath item w = .error (.errno e.1) { w with settings := e.2 } := by
        simp [screenshotPath, hdir]
      rw [preview, Each.bind_eq, hpath]
      exact .noDirectory hdir
  | ok r =>
      rcases r with ⟨dir, t⟩
      have hdir' := engine.platform.screenshotDir_path hdir
      subst hdir'
      have hpath : engine.screenshotPath item w =
          .ok (engine.previewOf item) { w with settings := t } := by
        simp [screenshotPath, hdir, previewOf]
      simp only [preview, Each.bind_eq, hpath, getScreenshot, Each.modify_eq, call]
      cases hbefore : engine.transcoder.beforeTranscode (w.fs, w.transcoder) with
      | error f s => exact .notBegun hdir hbefore
      | ok u s =>
          cases hshot : engine.transcoder.getScreenshot item.sourcePath (engine.previewOf item) s with
          | error f s' =>
              have hraised := Previewed.raised hdir hbefore hshot
              simpa [World.note, World.leave, hshot] using hraised
          | ok u s' =>
              have hdone := Previewed.done hdir hbefore hshot
              simpa [World.note, World.leave, hshot] using hdone

theorem transcode_spec (w : World τ) :
    (∃ f s, w.fs.exist? item.targetPath = false ∧
        engine.transcoder.transcode item.sourcePath item.targetPath (w.fs, w.transcoder) =
          .error f s ∧
        engine.transcode item.sourcePath item.targetPath w =
          .error f ((w.note (.transcode item.sourcePath item.targetPath)).leave s)) ∨
      ∃ ret w', Transcoded engine item w ret w' ∧
        engine.transcode item.sourcePath item.targetPath w = .ok ret w' := by
  cases hthere : w.fs.exist? item.targetPath with
  | true =>
      right
      refine ⟨true, w, .present hthere, ?_⟩
      simp [transcode, Each.bind_eq, Each.get_eq, hthere, Each.pure_eq]
  | false =>
      have hcall : engine.transcode item.sourcePath item.targetPath w =
          call (engine.transcoder.transcode item.sourcePath item.targetPath)
            (w.note (.transcode item.sourcePath item.targetPath)) := by
        simp [transcode, Each.bind_eq, Each.get_eq, hthere, Each.modify_eq]
      cases hrun : engine.transcoder.transcode item.sourcePath item.targetPath
          (w.fs, w.transcoder) with
      | error f s =>
          left
          exact ⟨f, s, rfl, rfl, by simp [hcall, call, World.note, hrun]⟩
      | ok ret s =>
          right
          exact ⟨ret, _, .ran hthere hrun, by simp [hcall, call, World.note, hrun]⟩

theorem turn_of_due {w : World τ} (hdue : shouldEncode w.fs item = true) :
    engine.turn item w = engine.convertFile item w := by
  simp [turn, Each.bind_eq, Each.get_eq, hdue]

theorem turn_spec (w : World τ) : Turn engine item w (engine.turn item w) := by
  cases hdue : shouldEncode w.fs item with
  | false =>
      have hturn : engine.turn item w = .ok () (w.note (.skipped item)) := by
        simp [turn, Each.bind_eq, Each.get_eq, hdue, Each.modify_eq]
      rw [hturn]
      exact .skipped hdue
  | true =>
      rw [turn_of_due engine item hdue]
      cases hdir : w.fs.tree.mkdir_p (File.dirname item.targetPath) with
      | error e =>
          -- `mkdir_p` raises
          have hconvert : engine.convertFile item w = .error (.errno e.1) (w.setTree e.2) := by
            simp [convertFile, createPathAndConvert, Each.bind_eq, mkdir_p, hdir]
          rw [hconvert]
          exact .noDirectory hdue hdir
      | ok t =>
          have hmade : mkdir_p (File.dirname item.targetPath) w = .ok () (w.setTree t) := by
            simp [mkdir_p, hdir]
          -- `Engine#transcode` raises, answers false, or answers true
          rcases transcode_spec engine item (w.setTree t) with
            ⟨f, s, hfree, hrun, hraise⟩ | ⟨ret, w', hrun, hret⟩
          · simp only [convertFile, createPathAndConvert, Each.bind_eq, hmade, hraise]
            exact .raised hdue hdir hfree hrun
          · cases ret with
            | false =>
                simp only [convertFile, createPathAndConvert, Each.bind_eq, hmade, hret]
                exact .failed hdue hdir hrun
            | true =>
                have hpreview := preview_spec engine item w'
                simp only [convertFile, createPathAndConvert, Each.bind_eq, hmade, hret, if_true]
                cases hshot : engine.preview item w' with
                | error f w'' => exact .notPreviewed hdue hdir hrun (hshot ▸ hpreview)
                | ok u w'' => exact .succeeded hdue hdir hrun (hshot ▸ hpreview)

/-! ## What the ways have in common -/

section Effects

variable {engine : Engine τ} {item : EncodingItem} {w w' : World τ}

theorem Previewed.of_ok (h : Previewed engine item w (.ok () w')) :
    w'.state = w.state ∧
      w'.events = w.events ++ [.screenshot item.sourcePath (engine.previewOf item)] := by
  cases h
  exact ⟨rfl, rfl⟩

/-- The screenshot calls no transcode method and records nothing. -/
theorem Previewed.events {r : EStateM.Result Fault (World τ) Unit} (h : Previewed engine item w r) :
    (Each.left r).state = w.state ∧ ∃ calls, (Each.left r).events = w.events ++ calls ∧
      (calls = [] ∨ calls = [.screenshot item.sourcePath (engine.previewOf item)]) := by
  cases h with
  | noDirectory hdir => exact ⟨rfl, [], by simp, Or.inl rfl⟩
  | notBegun hdir hbefore => exact ⟨rfl, [], by simp [World.leave], Or.inl rfl⟩
  | raised hdir hbefore hshot => exact ⟨rfl, _, rfl, Or.inr rfl⟩
  | done hdir hbefore hshot => exact ⟨rfl, _, rfl, Or.inr rfl⟩

theorem shouldEncode_eq_false {fs : FileSystem} {item : EncodingItem}
    (h : shouldEncode fs item = false) :
    fs.exist? item.targetPath = true ∧ 256 < fs.size item.targetPath := by
  unfold shouldEncode at h
  split at h
  · next hthere => exact ⟨hthere, by simpa using h⟩
  · cases h

/-- The calls `Engine#transcode` makes: one if there is no target, none otherwise. -/
theorem Transcoded.calls {ret : Bool} (h : Transcoded engine item w ret w') :
    w'.state = w.state ∧ ∃ calls, w'.events = w.events ++ calls ∧
      ((w.fs.exist? item.targetPath = true ∧ calls = []) ∨
        (w.fs.exist? item.targetPath = false ∧
          calls = [.transcode item.sourcePath item.targetPath])) := by
  cases h with
  | present hthere => exact ⟨rfl, [], by simp, Or.inl ⟨hthere, rfl⟩⟩
  | ran hfree hrun => exact ⟨rfl, _, rfl, Or.inr ⟨hfree, rfl⟩⟩

/-- Neither the screenshot nor `Engine#transcode` records anything. -/
theorem Previewed.noRecord {r : EStateM.Result Fault (World τ) Unit}
    (h : Previewed engine item w r) :
    (Each.left r).state = w.state ∧ ∃ calls, (Each.left r).events = w.events ++ calls ∧
      ∀ x, .succeeded x ∉ calls ∧ .failed x ∉ calls := by
  rcases h.events with ⟨hstate, calls, hcalls, hkind⟩
  refine ⟨hstate, calls, hcalls, ?_⟩
  rcases hkind with rfl | rfl <;> simp

theorem Transcoded.noRecord {ret : Bool} (h : Transcoded engine item w ret w') :
    w'.state = w.state ∧ ∃ calls, w'.events = w.events ++ calls ∧
      ∀ x, .succeeded x ∉ calls ∧ .failed x ∉ calls := by
  rcases h.calls with ⟨hstate, calls, hcalls, hkind⟩
  refine ⟨hstate, calls, hcalls, ?_⟩
  rcases hkind with ⟨_, rfl⟩ | ⟨_, rfl⟩ <;> simp

/-- `Transcoded` is what the method returns. -/
theorem Transcoded.eq {ret : Bool} (h : Transcoded engine item w ret w') :
    engine.transcode item.sourcePath item.targetPath w = .ok ret w' := by
  cases h with
  | present hthere => simp [transcode, Each.bind_eq, Each.get_eq, hthere, Each.pure_eq]
  | ran hfree hrun =>
      simp [transcode, Each.bind_eq, Each.get_eq, hfree, Each.modify_eq, call, World.note, hrun]

theorem Previewed.eq {r : EStateM.Result Fault (World τ) Unit} (h : Previewed engine item w r) :
    engine.preview item w = r := by
  have hpath : ∀ {t : Tree},
      engine.platform.screenshotDir w.settings = .ok (engine.platform.previewPath, t) →
      engine.preview item w =
        engine.getScreenshot item.sourcePath (engine.previewOf item) { w with settings := t } := by
    intro t hdir
    simp [preview, Each.bind_eq, screenshotPath, hdir, previewOf]
  cases h with
  | noDirectory hdir => simp [preview, Each.bind_eq, screenshotPath, hdir]
  | notBegun hdir hbefore =>
      rw [hpath hdir]
      simp [getScreenshot, Each.bind_eq, call, hbefore]
  | raised hdir hbefore hshot =>
      rw [hpath hdir]
      simp [getScreenshot, Each.bind_eq, Each.modify_eq, call, World.note, World.leave, hbefore, hshot]
  | done hdir hbefore hshot =>
      rw [hpath hdir]
      simp [getScreenshot, Each.bind_eq, Each.modify_eq, call, World.note, World.leave, hbefore, hshot]

/-- So is `Turn` what a round does. -/
theorem Turn.eq {r : EStateM.Result Fault (World τ) Unit} (h : Turn engine item w r) :
    engine.turn item w = r := by
  have hmade : ∀ {t : Tree}, w.fs.tree.mkdir_p (File.dirname item.targetPath) = .ok t →
      mkdir_p (File.dirname item.targetPath) w = .ok () (w.setTree t) := by
    intro t hdir
    simp [mkdir_p, hdir]
  cases h with
  | skipped hskip => simp [turn, Each.bind_eq, Each.get_eq, hskip, Each.modify_eq]
  | noDirectory hdue hdir =>
      rw [turn_of_due engine item hdue]
      simp [convertFile, createPathAndConvert, Each.bind_eq, mkdir_p, hdir]
  | @raised t f s hdue hdir hfree hrun =>
      have hraise : engine.transcode item.sourcePath item.targetPath (w.setTree t) =
          .error f (((w.setTree t).note (.transcode item.sourcePath item.targetPath)).leave s) := by
        have hrun' : engine.transcoder.transcode item.sourcePath item.targetPath
            ((w.setTree t).fs, (w.setTree t).transcoder) = .error f s := hrun
        simp [transcode, Each.bind_eq, Each.get_eq, hfree, Each.modify_eq, call, World.note, hrun']
      rw [turn_of_due engine item hdue]
      simp [convertFile, createPathAndConvert, Each.bind_eq, hmade hdir, hraise]
  | failed hdue hdir hrun =>
      rw [turn_of_due engine item hdue]
      simp [convertFile, createPathAndConvert, Each.bind_eq, hmade hdir, hrun.eq, Each.pure_eq,
        Each.modify_eq]
  | notPreviewed hdue hdir hrun hpreview =>
      rw [turn_of_due engine item hdue]
      simp only [convertFile, createPathAndConvert, Each.bind_eq, hmade hdir, hrun.eq, if_true,
        hpreview.eq]
  | succeeded hdue hdir hrun hpreview =>
      rw [turn_of_due engine item hdue]
      simp only [convertFile, createPathAndConvert, Each.bind_eq, hmade hdir, hrun.eq, if_true,
        hpreview.eq, Each.pure_eq, Each.modify_eq]

/-- A turn that raises calls the transcoder at most, and records nothing. -/
theorem Turn.of_error {e : Fault} (h : Turn engine item w (.error e w')) :
    w'.state = w.state ∧ ∃ calls, w'.events = w.events ++ calls ∧
      ∀ x, .succeeded x ∉ calls ∧ .failed x ∉ calls := by
  cases h with
  | noDirectory hdue hdir => exact ⟨rfl, [], by simp [World.setTree], by simp⟩
  | raised hdue hdir hfree hrun => exact ⟨rfl, _, rfl, by simp⟩
  | notPreviewed hdue hdir hrun hpreview =>
      rcases hrun.noRecord with ⟨hstate, calls, hcalls, hnone⟩
      rcases hpreview.noRecord with ⟨hstate', shots, hshots, hnone'⟩
      rw [Each.left_error] at hstate' hshots
      refine ⟨by rw [hstate', hstate]; rfl, calls ++ shots, ?_, ?_⟩
      · simp [hshots, hcalls, World.setTree]
      · intro x
        simp [hnone x, hnone' x]

/-- Events are only added. -/
theorem Turn.events {r : EStateM.Result Fault (World τ) Unit} (h : Turn engine item w r) :
    ∃ events, (Each.left r).events = w.events ++ events := by
  cases h with
  | skipped hskip => exact ⟨_, rfl⟩
  | noDirectory hdue hdir => exact ⟨[], by simp [World.setTree]⟩
  | raised hdue hdir hfree hrun => exact ⟨_, rfl⟩
  | failed hdue hdir hrun =>
      rcases hrun.calls with ⟨_, calls, hcalls, _⟩
      exact ⟨calls ++ [.failed item], by simp [World.encodeFailed, hcalls, World.setTree]⟩
  | notPreviewed hdue hdir hrun hpreview =>
      rcases hrun.calls with ⟨_, calls, hcalls, _⟩
      rcases hpreview.events with ⟨_, calls', hcalls', _⟩
      refine ⟨calls ++ calls', ?_⟩
      rw [Each.left_error] at hcalls' ⊢
      simp [hcalls', hcalls, World.setTree]
  | succeeded hdue hdir hrun hpreview =>
      rcases hrun.calls with ⟨_, calls, hcalls, _⟩
      rcases hpreview.events with ⟨_, calls', hcalls', _⟩
      refine ⟨calls ++ calls' ++ [.succeeded item], ?_⟩
      rw [Each.left_ok] at hcalls'
      simp [World.encodeSucceeded, hcalls', hcalls, World.setTree]

/-- A target that is there is not transcoded. -/
theorem transcoded_of_present {ret : Bool} (hthere : (w.fs.tree.stat item.targetPath).isSome = true)
    (h : Transcoded engine item w ret w') : ret = true ∧ w' = w := by
  cases h with
  | present _ => exact ⟨rfl, rfl⟩
  | ran hfree _ =>
      have hnone : (w.fs.tree.stat item.targetPath).isSome = false := hfree
      simp [hthere] at hnone

/-- The target is there, or gets there with its directory: the item is skipped, or goes on to its
preview at once. -/
theorem turn_of_present {t : Tree} {r : EStateM.Result Fault (World τ) Unit}
    (hdir : w.fs.tree.mkdir_p (File.dirname item.targetPath) = .ok t)
    (hthere : (t.stat item.targetPath).isSome = true) (h : Turn engine item w r) :
    (r = .ok () (w.note (.skipped item)) ∧ w.fs.tree = t) ∨
      ∃ r', Previewed engine item (w.setTree t) r' ∧
        ((∃ f w', r' = .error f w' ∧ r = .error f w') ∨
          ∃ w', r' = .ok () w' ∧ r = .ok () (w'.encodeSucceeded item)) := by
  have hpresent : ((w.setTree t).fs.tree.stat item.targetPath).isSome = true := hthere
  cases h with
  | skipped hskip =>
      -- a skipped item has its directory already
      rcases Option.isSome_iff_exists.1 (shouldEncode_eq_false hskip).1 with ⟨loc, hstat⟩
      have ht := (Tree.mkdir_p_of_stat hstat).symm.trans hdir
      cases ht
      exact Or.inl ⟨rfl, rfl⟩
  | noDirectory hdue hdir' => simp [hdir] at hdir'
  | raised hdue hdir' hfree hrun =>
      rw [hdir] at hdir'
      cases hdir'
      have hnone : (t.stat item.targetPath).isSome = false := hfree
      simp [hthere] at hnone
  | failed hdue hdir' hrun =>
      rw [hdir] at hdir'
      cases hdir'
      have hret := (transcoded_of_present hpresent hrun).1
      cases hret
  | notPreviewed hdue hdir' hrun hpreview =>
      rw [hdir] at hdir'
      cases hdir'
      have hw := (transcoded_of_present hpresent hrun).2
      subst hw
      exact Or.inr ⟨_, hpreview, Or.inl ⟨_, _, rfl, rfl⟩⟩
  | succeeded hdue hdir' hrun hpreview =>
      rw [hdir] at hdir'
      cases hdir'
      have hw := (transcoded_of_present hpresent hrun).2
      subst hw
      exact Or.inr ⟨_, hpreview, Or.inr ⟨_, rfl, rfl⟩⟩

/-- Then `transcode` is not called. -/
theorem noCall_of_present {t : Tree} {r : EStateM.Result Fault (World τ) Unit}
    (hdir : w.fs.tree.mkdir_p (File.dirname item.targetPath) = .ok t)
    (hthere : (t.stat item.targetPath).isSome = true) (h : Turn engine item w r) :
    ∃ calls, (Each.left r).events = w.events ++ calls ∧
      ∀ input output, Event.transcode input output ∉ calls := by
  rcases turn_of_present hdir hthere h with ⟨rfl, _⟩ | ⟨r', hpreview, hr⟩
  · exact ⟨[.skipped item], rfl, by simp⟩
  · rcases hpreview.events with ⟨_, shots, hshots, hshot⟩
    rcases hr with ⟨f, w', rfl, rfl⟩ | ⟨w', rfl, rfl⟩
    · refine ⟨shots, hshots, ?_⟩
      rcases hshot with rfl | rfl <;> simp
    · refine ⟨shots ++ [.succeeded item], ?_, ?_⟩
      · rw [Each.left_ok] at hshots
        simp [World.encodeSucceeded, hshots, World.setTree]
      · rcases hshot with rfl | rfl <;> simp

end Effects

theorem events_loop (xs : List EncodingItem) (w : World τ) :
    ∃ events, (Each.left (xs.forM engine.turn w)).events = w.events ++ events := by
  refine Each.left_forM (P := fun v : World τ => ∃ events, v.events = w.events ++ events) ?_
    ⟨[], (List.append_nil _).symm⟩
  rintro x _ v ⟨events, hv⟩
  rcases (turn_spec engine x v).events with ⟨more, hmore⟩
  exact ⟨events ++ more, by rw [hmore, hv, List.append_assoc]⟩

end Engine
end Yikes
