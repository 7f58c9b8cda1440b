import Yikes.Lib.FFMpeg
import Yikes.Properties.Pass

/-!
# Outcome — what a recorded result says about ffmpeg

`run_external_command` answers true however the command ends, so a conversion with the ffmpeg
transcoder is recorded as succeeded or not at all.  `reports_iff_conclusive` says for which
conversions the record agrees with the exit status, and what the finished list means in a run of such
conversions.
-/

namespace Yikes

open Ruby

namespace Engine

variable {σ : Type} (platform : Platform) (libDir : Str) (system : System σ) (md5 : Str → Str)

/-- An engine with the default transcoder. -/
def ffmpegEngine : Engine (Outside σ) where
  transcoder := ffmpegTranscoder platform libDir system
  platform := platform
  md5 := md5

/-- How the transcode command ends that is run for an item in this world. -/
def transcodeEnd (item : EncodingItem) (w : World (Outside σ)) : CommandEnd :=
  (system (FFMpegTranscoder.getTranscodeCommand libDir item.sourcePath item.targetPath)
    (w.fs, FFMpegTranscoder.setLibraryPath libDir w.transcoder)).1

/-- The conversion of an item runs its transcode command, and that exits with status 0. -/
def exitsZero (item : EncodingItem) (w : World (Outside σ)) : Bool :=
  match w.fs.tree.mkdir_p (File.dirname item.targetPath) with
  | .error _ => false
  | .ok t =>
      !(w.setTree t).fs.exist? item.targetPath &&
        transcodeEnd libDir system item (w.setTree t) == .exited 0

/-- The conversion calls `encode_succeeded!` if the command exits with status 0, and `encode_failed!`
otherwise. -/
def Reports (item : EncodingItem) (w : World (Outside σ)) : Prop :=
  ∃ calls, (Each.left ((ffmpegEngine platform libDir system md5).convertFile item w)).events =
      w.events ++ calls ∧
    (.succeeded item ∈ calls ↔ exitsZero libDir system item w = true) ∧
    (.failed item ∈ calls ↔ exitsZero libDir system item w = false)

/-- The command is run and exits with status 0, and there is a place for the preview. -/
def Conclusive (item : EncodingItem) (w : World (Outside σ)) : Prop :=
  exitsZero libDir system item w = true ∧ platform.Ready w.settings

instance (item : EncodingItem) (w : World (Outside σ)) :
    Decidable (Conclusive platform libDir system item w) :=
  inferInstanceAs (Decidable (_ ∧ _))

variable {platform libDir system md5} {item : EncodingItem} {w w' : World (Outside σ)}
  {r : EStateM.Result Fault (World (Outside σ)) Unit}

/-! ## One conversion -/

theorem ffmpeg_transcoded {ret : Bool}
    (h : Transcoded (ffmpegEngine platform libDir system md5) item w ret w') :
    ret = true ∧ w'.settings = w.settings := by
  cases h with
  | present hthere => exact ⟨rfl, rfl⟩
  | ran hfree hrun =>
      have hok := ffmpegTranscoder_transcode platform libDir system item.sourcePath item.targetPath
        w.fs w.transcoder
      have hsame := hok.symm.trans hrun
      cases hsame
      exact ⟨rfl, rfl⟩

/-- Only a preview directory that cannot be made stops the screenshot. -/
theorem ffmpeg_previewed
    (h : Previewed (ffmpegEngine platform libDir system md5) item w r) :
    (platform.Ready w.settings ∧ ∃ w', r = .ok () w') ∨
      (¬ platform.Ready w.settings ∧ ∃ f w', r = .error f w') := by
  have hbefore' := ffmpegTranscoder_beforeTranscode platform libDir system w.fs w.transcoder
  have hshot' := ffmpegTranscoder_getScreenshot platform libDir system item.sourcePath
    ((ffmpegEngine platform libDir system md5).previewOf item) w.fs
    (FFMpegTranscoder.setLibraryPath libDir w.transcoder)
  cases h with
  | noDirectory hdir =>
      right
      refine ⟨?_, _, _, rfl⟩
      rintro ⟨t, hready⟩
      have hsame := hready.symm.trans hdir
      cases hsame
  | notBegun hdir hbefore =>
      have hsame := hbefore'.symm.trans hbefore
      cases hsame
  | raised hdir hbefore hshot =>
      have hsame := hbefore'.symm.trans hbefore
      cases hsame
      have hsame' := hshot'.symm.trans hshot
      cases hsame'
  | done hdir hbefore hshot => exact Or.inl ⟨⟨_, hdir⟩, _, rfl⟩

/-- No conversion is recorded as failed; it is recorded as succeeded if both directories it needs can
be made. -/
theorem ffmpeg_records (h : Turn (ffmpegEngine platform libDir system md5) item w r)
    (hdue : shouldEncode w.fs item = true) :
    ∃ calls, (Each.left r).events = w.events ++ calls ∧ .failed item ∉ calls ∧
      (.succeeded item ∈ calls ↔
        (∃ t, w.fs.tree.mkdir_p (File.dirname item.targetPath) = .ok t) ∧
          platform.Ready w.settings) := by
  cases h with
  | skipped hskip => simp [hdue] at hskip
  | noDirectory _ hdir => exact ⟨[], by simp [World.setTree], by simp, by simp [hdir]⟩
  | @raised t _ _ _ hdir hfree hrun =>
      have hok := ffmpegTranscoder_transcode platform libDir system item.sourcePath item.targetPath
        (w.setTree t).fs w.transcoder
      have hsame := hok.symm.trans hrun
      cases hsame
  -- `Engine#transcode` never answers false
  | failed _ hdir hrun =>
      have hret := (ffmpeg_transcoded hrun).1
      cases hret
  -- the command was run, but the exception comes before any record
  | notPreviewed _ hdir hrun hpreview =>
      have hready : ¬ platform.Ready w.settings := by
        rcases ffmpeg_previewed hpreview with ⟨_, w₁, heq⟩ | ⟨hnot, _⟩
        · cases heq
        · rw [(ffmpeg_transcoded hrun).2] at hnot
          exact hnot
      rcases (Turn.notPreviewed hdue hdir hrun hpreview).of_error with ⟨_, calls, hcalls, hnone⟩
      exact ⟨calls, hcalls, (hnone item).2, by simp [(hnone item).1, hready]⟩
  | succeeded _ hdir hrun hpreview =>
      have hready : platform.Ready w.settings := by
        rcases ffmpeg_previewed hpreview with ⟨hready, _⟩ | ⟨_, f, w₁, heq⟩
        · rw [(ffmpeg_transcoded hrun).2] at hready
          exact hready
        · cases heq
      rcases hrun.noRecord with ⟨_, calls, hcalls, hnone⟩
      refine ⟨calls ++ [.screenshot item.sourcePath
        ((ffmpegEngine platform libDir system md5).previewOf item), .succeeded item], ?_, ?_, ?_⟩
      · simp [World.encodeSucceeded, hpreview.of_ok.2, hcalls, World.setTree]
      · simp [(hnone item).2]
      · simp [hdir, hready]

/-- Whether the record of a conversion agrees with the exit status. -/
theorem reports_iff (hfree : w.fs.exist? item.targetPath = false) :
    Reports platform libDir system md5 item w ↔ Conclusive platform libDir system item w := by
  have hdue : shouldEncode w.fs item = true := by
    simp [shouldEncode, hfree]
  have hspec := turn_spec (ffmpegEngine platform libDir system md5) item w
  rw [turn_of_due _ _ hdue] at hspec
  rcases ffmpeg_records hspec hdue with ⟨calls, hcalls, hfailed, hsucceeded⟩
  constructor
  · rintro ⟨calls', hcalls', hsucceeded', hfailed'⟩
    have hsame : calls' = calls := List.append_cancel_left (hcalls'.symm.trans hcalls)
    subst hsame
    -- otherwise a failure would have to be recorded, and none ever is
    have hzero : exitsZero libDir system item w = true := by
      cases hexit : exitsZero libDir system item w with
      | true => rfl
      | false => exact absurd (hfailed'.2 hexit) hfailed
    exact ⟨hzero, (hsucceeded.1 (hsucceeded'.2 hzero)).2⟩
  · rintro ⟨hzero, hready⟩
    have hdir : ∃ t, w.fs.tree.mkdir_p (File.dirname item.targetPath) = .ok t := by
      unfold exitsZero at hzero
      split at hzero
      · cases hzero
      · next t hdir => exact ⟨t, hdir⟩
    refine ⟨calls, hcalls, ?_, ?_⟩
    · simp [hzero, hsucceeded.2 ⟨hdir, hready⟩]
    · simp [hzero, hfailed]

/-! ## A run -/

/-- The states of an engine over passes that completed, with the conversions made so far: each item
that was not skipped, and the world at its turn. -/
inductive Run (engine : Engine (Outside σ)) : State → List (EncodingItem × World (Outside σ)) → Prop
  | new (library : Str) : Run engine (State.new library) []
  | pass {w w' : World (Outside σ)} {library target : Str}
      {turns : List (EncodingItem × World (Outside σ))} (hstate : Run engine w.state turns)
      (hrun : engine.doEncode library target w = .ok () w') :
      Run engine w'.state (turns ++
        (Each.turns engine.turn (items w.fs.tree library target) w).filter
          fun turn => shouldEncode turn.2.fs turn.1)

/-- `x` is `item` once its conversion was recorded. -/
def RecordOf (x item : EncodingItem) : Prop :=
  ∃ succeeded now, x = { item with succeeded := succeeded, finishedAt := some now }

theorem recorded_of_turn {engine : Engine (Outside σ)} {x : EncodingItem}
    (h : Turn engine item w (.ok () w')) (hx : x ∈ w'.state.encodedQueue) :
    x ∈ w.state.encodedQueue ∨ (shouldEncode w.fs item = true ∧ RecordOf x item) := by
  cases h with
  | skipped hskip => exact Or.inl hx
  | failed hdue hdir hrun =>
      rcases State.mem_addToFinishedList hx with hold | rfl
      · rw [hrun.calls.1] at hold
        exact Or.inl hold
      · exact Or.inr ⟨hdue, _, _, rfl⟩
  | succeeded hdue hdir hrun hpreview =>
      rcases State.mem_addToFinishedList hx with hold | rfl
      · rw [hpreview.of_ok.1, hrun.calls.1] at hold
        exact Or.inl hold
      · exact Or.inr ⟨hdue, _, _, rfl⟩

theorem recorded_of_loop {engine : Engine (Outside σ)} (xs : List EncodingItem) :
    ∀ {w w' : World (Outside σ)}, xs.forM engine.turn w = .ok () w' →
      ∀ x ∈ w'.state.encodedQueue, x ∈ w.state.encodedQueue ∨
        ∃ turn ∈ (Each.turns engine.turn xs w).filter fun turn => shouldEncode turn.2.fs turn.1,
          RecordOf x turn.1 := by
  induction xs with
  | nil =>
      intro w w' h x hx
      cases h
      exact Or.inl hx
  | cons y xs ih =>
      intro w w' h x hx
      have hspec := turn_spec engine y w
      rw [Each.forM_cons] at h
      cases hturn : engine.turn y w with
      | error e w₁ => simp [hturn] at h
      | ok u w₁ =>
          rw [hturn] at h hspec
          have hturns : Each.turns engine.turn (y :: xs) w =
              (y, w) :: Each.turns engine.turn xs w₁ := by
            simp [Each.turns, hturn]
          rw [hturns]
          rcases ih h x hx with hmid | ⟨turn, hmem, hrecord⟩
          -- it was there when the later turns began: from before, or from this turn
          · rcases recorded_of_turn hspec hmid with hold | ⟨hdue, hrecord⟩
            · exact Or.inl hold
            · exact Or.inr ⟨(y, w), by simp [hdue], hrecord⟩
          · refine Or.inr ⟨turn, ?_, hrecord⟩
            rw [List.mem_filter] at hmem ⊢
            exact ⟨List.mem_cons_of_mem _ hmem.1, hmem.2⟩

theorem Run.toEncodeQueue {engine : Engine (Outside σ)} {s : State}
    {turns : List (EncodingItem × World (Outside σ))} (h : Run engine s turns) :
    s.toEncodeQueue = [] := by
  induction h with
  | new library => rfl
  | pass _ hrun ih => exact toEncodeQueue_doEncode engine ih hrun

/-- Every finished item stems from a conversion of the run. -/
theorem Run.recorded {engine : Engine (Outside σ)} {s : State}
    {turns : List (EncodingItem × World (Outside σ))} (h : Run engine s turns) :
    ∀ x ∈ s.encodedQueue, ∃ turn ∈ turns, RecordOf x turn.1 := by
  induction h with
  | new library => simp [State.new]
  | @pass w w' library target turns hstate hrun ih =>
      intro x hx
      rw [doEncode_of_empty engine hstate.toEncodeQueue] at hrun
      rcases recorded_of_loop _ hrun x hx with hold | ⟨turn, hmem, hrecord⟩
      · rcases ih x hold with ⟨turn, hmem, hrecord⟩
        exact ⟨turn, by simp [hmem], hrecord⟩
      · exact ⟨turn, List.mem_append_right _ hmem, hrecord⟩

/-- For an item without a target the record agrees with the exit status of the command if and only if
the command is run, exits with status 0, and the preview has a place.  In a run of such conversions
every finished item has a command that exited with status 0. -/
theorem reports_iff_conclusive (platform : Platform) (libDir : Str) (system : System σ)
    (md5 : Str → Str) :
    (∀ (item : EncodingItem) (w : World (Outside σ)), w.fs.exist? item.targetPath = false →
      (Reports platform libDir system md5 item w ↔ Conclusive platform libDir system item w)) ∧
    ∀ (s : State) (turns : List (EncodingItem × World (Outside σ))),
      Run (ffmpegEngine platform libDir system md5) s turns →
      (∀ turn ∈ turns, Conclusive platform libDir system turn.1 turn.2) →
      ∀ x ∈ s.encodedQueue, ∃ turn ∈ turns, RecordOf x turn.1 ∧
        exitsZero libDir system turn.1 turn.2 = true := by
  refine ⟨fun item w hfree => reports_iff hfree, ?_⟩
  intro s turns hrun hall x hx
  rcases hrun.recorded x hx with ⟨turn, hmem, hrecord⟩
  exact ⟨turn, hmem, hrecord, (hall turn hmem).1⟩

end Engine

namespace Sample

/-- An ffmpeg that ends with the given status and writes nothing. -/
def exits (status : Nat) : System Unit :=
  fun _ s => (.exited status, s)

def outsideWorld : World (Outside Unit) :=
  world { environ := fun _ => none, rest := () } tree

def item : EncodingItem :=
  EncodingItem.new ".".toList "./a.avi".toList "iPod".toList

def ffmpeg (status : Nat) : Engine (Outside Unit) :=
  Engine.ffmpegEngine platform "/opt".toList (exits status) id

/-- A pass over the small library with an ffmpeg that ends with status 0. -/
def ffmpegPass : EStateM.Result Fault (World (Outside Unit)) Unit :=
  (ffmpeg 0).doEncode ".".toList "iPod".toList outsideWorld

def ffmpegTurns : List (EncodingItem × World (Outside Unit)) :=
  (Each.turns (ffmpeg 0).turn (Engine.items outsideWorld.fs.tree ".".toList "iPod".toList)
    outsideWorld).filter fun turn => Engine.shouldEncode turn.2.fs turn.1

theorem ffmpegRun (h : completes ffmpegPass = true) :
    Engine.Run (ffmpeg 0) (Each.left ffmpegPass).state ([] ++ ffmpegTurns) :=
  .pass (.new ".".toList) (ok_of_completes h)

end Sample

theorem reports_iff_conclusive_sample :
    Engine.Reports Sample.platform "/opt".toList (Sample.exits 0) id Sample.item
        Sample.outsideWorld ∧
      ∀ x ∈ (Each.left Sample.ffmpegPass).state.encodedQueue, ∃ turn ∈ [] ++ Sample.ffmpegTurns,
        Engine.RecordOf x turn.1 ∧
          Engine.exitsZero "/opt".toList (Sample.exits 0) turn.1 turn.2 = true := by
  have hconclusive : Engine.Conclusive Sample.platform "/opt".toList (Sample.exits 0) Sample.item
      Sample.outsideWorld := by
    decide +kernel
  have hfree : Sample.outsideWorld.fs.exist? Sample.item.targetPath = false := by
    decide +kernel
  have hdone : Sample.completes Sample.ffmpegPass = true := by
    decide +kernel
  have hall : ∀ turn ∈ [] ++ Sample.ffmpegTurns,
      Engine.Conclusive Sample.platform "/opt".toList (Sample.exits 0) turn.1 turn.2 := by
    decide +kernel
  have hresult := Engine.reports_iff_conclusive Sample.platform "/opt".toList (Sample.exits 0) id
  exact ⟨(hresult.1 Sample.item Sample.outsideWorld hfree).2 hconclusive,
    hresult.2 _ _ (Sample.ffmpegRun hdone) hall⟩

/-- A command that fails and writes nothing: its item is in the finished list as succeeded. -/
theorem failed_command_succeeds :
    Engine.transcodeEnd "/opt".toList (Sample.exits 1) Sample.item Sample.outsideWorld =
        .exited 1 ∧
      Sample.outsideWorld.fs.exist? Sample.item.targetPath = false ∧
      (Each.left ((Sample.ffmpeg 1).convertFile Sample.item
        Sample.outsideWorld)).state.encodedQueue =
          [{ Sample.item with succeeded := true, finishedAt := some 0 }] := by
  decide +kernel

end Yikes
