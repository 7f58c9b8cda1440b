import Yikes.Properties.Command
import Yikes.Properties.Outcome

/-!
# Executed — the shell between the engine and ffmpeg

`FFMpegTranscoder` gives texts to a shell.  An engine that executes ffmpeg itself, with the arguments
that are meant, does the same in every pass whose file names are plain, whatever ffmpeg does with the
files, and whatever the shell does with texts it does not read as one simple command
(`doEncode_executed`).

The names that matter are those in the calls of the pass.  When ffmpeg keeps a log of how it is
executed, the two passes are the same exactly if these are plain (`pass_executed_iff`).
-/

namespace Yikes

open Ruby Posix

/-! ## A transcoder without a shell -/

/-- What executing a program does, given its argument vector. -/
abbrev Program (σ : Type) :=
  List Str → FileSystem × Outside σ → CommandEnd × (FileSystem × Outside σ)

namespace FFMpegTranscoder

variable {σ : Type} (libDir : Str) (exec : Program σ)

/-- The program is waited for; how it ends is not looked at. -/
def execute (args : List Str) : EStateM Fault (FileSystem × Outside σ) Bool := fun s =>
  .ok true (exec args s).2

def transcodeArgs (input output : Str) : List Str :=
  argv libDir (MiscParams ++ VideoParams ++ AudioParams) input output

def screenshotArgs (input output : Str) : List Str :=
  argv libDir ScreenshotParams input output

/-- The transcoder that is meant. -/
def executed : Transcoder (Outside σ) where
  beforeTranscode := beforeTranscode libDir
  transcode := fun input output => do
    beforeTranscode libDir
    execute exec (transcodeArgs libDir input output)
  getScreenshot := fun input output => do
    beforeTranscode libDir
    discard (execute exec (screenshotArgs libDir input output))

theorem executed_transcode (input output : Str) (fs : FileSystem) (s : Outside σ) :
    (executed libDir exec).transcode input output (fs, s) =
      .ok true (exec (transcodeArgs libDir input output) (fs, setLibraryPath libDir s)).2 := rfl

theorem executed_getScreenshot (input output : Str) (fs : FileSystem) (s : Outside σ) :
    (executed libDir exec).getScreenshot input output (fs, s) =
      .ok () (exec (screenshotArgs libDir input output) (fs, setLibraryPath libDir s)).2 := rfl

/-- Both commands are read as what is meant exactly if the names are plain. -/
theorem transcodeCommand_read_iff (input output : Str) :
    Shell.simpleCommand (getTranscodeCommand libDir input output) =
        some (transcodeArgs libDir input output) ↔ PlainNames libDir input output := by
  rw [getTranscodeCommand_eq, transcodeArgs]
  exact command_read_iff reads_params libDir input output

theorem screenshotCommand_read_iff (input output : Str) :
    Shell.simpleCommand (getScreenshotCommand libDir input output) =
        some (screenshotArgs libDir input output) ↔ PlainNames libDir input output := by
  have hparams : ∀ w ∈ ScreenshotParams, Shell.Literal w ∧ (Shell.Written.bare w).Visible := by decide
  rw [getScreenshotCommand, command_eq, screenshotArgs]
  exact command_read_iff hparams libDir input output

/-- With plain names, the shell executes what is meant. -/
theorem transcode_executed {input output : Str} (h : PlainNames libDir input output)
    (platform : Platform) (other : System σ) :
    (ffmpegTranscoder platform libDir (Shell.perform exec other)).transcode input output =
      (executed libDir exec).transcode input output := by
  funext ⟨fs, s⟩
  have hread := (transcodeCommand_read_iff libDir input output).2 h
  rw [ffmpegTranscoder_transcode, Shell.perform_of_read hread]
  rfl

theorem getScreenshot_executed {input output : Str} (h : PlainNames libDir input output)
    (platform : Platform) (other : System σ) :
    (ffmpegTranscoder platform libDir (Shell.perform exec other)).getScreenshot input output =
      (executed libDir exec).getScreenshot input output := by
  funext ⟨fs, s⟩
  have hread := (screenshotCommand_read_iff libDir input output).2 h
  rw [ffmpegTranscoder_getScreenshot, Shell.perform_of_read hread]
  rfl

end FFMpegTranscoder

namespace Engine

/-! ## Two transcoders and the calls of a pass -/

section Agree

variable {τ : Type} {platform : Platform} {md5 : Str → Str} {tc tc' : Transcoder τ}

/-- Two transcoders that do the same in the calls among the events. -/
structure Agree (tc tc' : Transcoder τ) (events : List Event) : Prop where
  beforeTranscode : tc'.beforeTranscode = tc.beforeTranscode
  transcode : ∀ input output, .transcode input output ∈ events →
    tc'.transcode input output = tc.transcode input output
  getScreenshot : ∀ input output, .screenshot input output ∈ events →
    tc'.getScreenshot input output = tc.getScreenshot input output

theorem Agree.part {front part back : List Event} (h : Agree tc tc' (front ++ part ++ back)) :
    Agree tc tc' part where
  beforeTranscode := h.beforeTranscode
  transcode := fun input output hmem => h.transcode input output (by simp [hmem])
  getScreenshot := fun input output hmem => h.getScreenshot input output (by simp [hmem])

variable {item : EncodingItem} {w w' : World τ} {events : List Event}

theorem Previewed.agree {r : EStateM.Result Fault (World τ) Unit}
    (h : Previewed ⟨tc, platform, md5⟩ item w r) (hagree : Agree tc tc' events)
    (hevents : (Each.left r).events = w.events ++ events) :
    Previewed ⟨tc', platform, md5⟩ item w r := by
  have hbegin := congrFun hagree.beforeTranscode (w.fs, w.transcoder)
  have hcall : ∀ {input output : Str}, w.events ++ [.screenshot input output] = w.events ++ events →
      tc'.getScreenshot input output = tc.getScreenshot input output := fun heq =>
    hagree.getScreenshot _ _ (by simp [← List.append_cancel_left heq])
  cases h with
  | noDirectory hdir => exact .noDirectory hdir
  | notBegun hdir hbefore => exact .notBegun hdir (hbegin.trans hbefore)
  | raised hdir hbefore hshot =>
      exact .raised hdir (hbegin.trans hbefore) ((congrFun (hcall hevents) _).trans hshot)
  | done hdir hbefore hshot =>
      exact .done hdir (hbegin.trans hbefore) ((congrFun (hcall hevents) _).trans hshot)

theorem Transcoded.agree {ret : Bool} (h : Transcoded ⟨tc, platform, md5⟩ item w ret w')
    (hagree : Agree tc tc' events) (hevents : w'.events = w.events ++ events) :
    Transcoded ⟨tc', platform, md5⟩ item w ret w' := by
  cases h with
  | present hthere => exact .present hthere
  | ran hfree hrun =>
      have hmem : .transcode item.sourcePath item.targetPath ∈ events := by
        simp [← List.append_cancel_left hevents]
      exact .ran hfree ((congrFun (hagree.transcode _ _ hmem) _).trans hrun)

/-- A turn goes the same way with a transcoder that does the same in its calls. -/
theorem Turn.agree {r : EStateM.Result Fault (World τ) Unit}
    (h : Turn ⟨tc, platform, md5⟩ item w r) (hagree : Agree tc tc' events)
    (hevents : (Each.left r).events = w.events ++ events) : Turn ⟨tc', platform, md5⟩ item w r := by
  -- the events of the parts of a turn are among those of the turn
  have hpart : ∀ {front part back : List Event},
      w.events ++ (front ++ part ++ back) = w.events ++ events → Agree tc tc' part := by
    intro front part back heq
    rw [← List.append_cancel_left heq] at hagree
    exact hagree.part
  cases h with
  | skipped hskip => exact .skipped hskip
  | noDirectory hdue hdir => exact .noDirectory hdue hdir
  | raised hdue hdir hfree hrun =>
      have hmem : .transcode item.sourcePath item.targetPath ∈ events := by
        simp [← List.append_cancel_left hevents]
      exact .raised hdue hdir hfree ((congrFun (hagree.transcode _ _ hmem) _).trans hrun)
  | @failed t w' hdue hdir hrun =>
      rcases hrun.calls with ⟨_, calls, hcalls, _⟩
      have hsplit : w.events ++ ([] ++ calls ++ [.failed item]) = w.events ++ events := by
        rw [← hevents]
        simp [World.encodeFailed, World.setTree, hcalls]
      exact .failed hdue hdir (hrun.agree (hpart hsplit) hcalls)
  | @notPreviewed t w' w'' f hdue hdir hrun hpreview =>
      rcases hrun.calls with ⟨_, calls, hcalls, _⟩
      rcases hpreview.events with ⟨_, shots, hshots, _⟩
      have hwhole : w''.events = w.events ++ calls ++ shots := by
        rw [Each.left_error] at hshots
        rw [hshots, hcalls]
        rfl
      have hcallsPart : w.events ++ ([] ++ calls ++ shots) = w.events ++ events := by
        rw [← hevents, Each.left_error, hwhole]
        simp
      have hshotsPart : w.events ++ (calls ++ shots ++ []) = w.events ++ events := by
        rw [← hevents, Each.left_error, hwhole]
        simp
      exact .notPreviewed hdue hdir (hrun.agree (hpart hcallsPart) hcalls)
        (hpreview.agree (hpart hshotsPart) hshots)
  | @succeeded t w' w'' hdue hdir hrun hpreview =>
      rcases hrun.calls with ⟨_, calls, hcalls, _⟩
      rcases hpreview.events with ⟨_, shots, hshots, _⟩
      have hwhole : (w''.encodeSucceeded item).events =
          w.events ++ calls ++ shots ++ [.succeeded item] := by
        rw [Each.left_ok] at hshots
        rw [World.encodeSucceeded, hshots, hcalls]
        rfl
      have hcallsPart : w.events ++ ([] ++ calls ++ (shots ++ [.succeeded item])) =
          w.events ++ events := by
        rw [← hevents, Each.left_ok, hwhole]
        simp
      have hshotsPart : w.events ++ (calls ++ shots ++ [.succeeded item]) = w.events ++ events := by
        rw [← hevents, Each.left_ok, hwhole]
        simp
      exact .succeeded hdue hdir (hrun.agree (hpart hcallsPart) hcalls)
        (hpreview.agree (hpart hshotsPart) hshots)

theorem forM_of_agree (xs : List EncodingItem) :
    ∀ {w : World τ} {events : List Event}, Agree tc tc' events →
      (Each.left (xs.forM (Engine.mk tc platform md5).turn w)).events = w.events ++ events →
      xs.forM (Engine.mk tc' platform md5).turn w = xs.forM (Engine.mk tc platform md5).turn w := by
  induction xs with
  | nil =>
      intro w events _ _
      rw [Each.forM_nil, Each.forM_nil]
  | cons x xs ih =>
      intro w events hagree hevents
      have hturn := turn_spec (Engine.mk tc platform md5) x w
      rcases hturn.events with ⟨first, hfirst⟩
      rw [Each.forM_cons] at hevents
      cases hrun : (Engine.mk tc platform md5).turn x w with
      | error e v =>
          rw [hrun] at hturn hevents
          rw [Each.forM_cons_error xs hrun, Each.forM_cons_error xs (hturn.agree hagree hevents).eq]
      | ok u v =>
          rw [hrun] at hturn hfirst hevents
          rcases events_loop (Engine.mk tc platform md5) xs v with ⟨rest, hrest⟩
          have hsplit : events = [] ++ first ++ rest ∧ events = first ++ rest ++ [] := by
            have hboth := hevents.symm.trans hrest
            rw [Each.left_ok] at hfirst
            rw [hfirst, List.append_assoc] at hboth
            simp [List.append_cancel_left hboth]
          have hsame := (hturn.agree (hsplit.1 ▸ hagree).part hfirst).eq
          rw [Each.forM_cons_ok xs hrun, Each.forM_cons_ok xs hsame]
          exact ih (hsplit.2 ▸ hagree).part hrest

/-- A pass does not tell two transcoders apart that do the same in its calls. -/
theorem doEncode_of_agree {library target : Str} (hagree : Agree tc tc' events)
    (hevents : (Each.left ((Engine.mk tc platform md5).doEncode library target w)).events =
      w.events ++ events) :
    (Engine.mk tc' platform md5).doEncode library target w =
      (Engine.mk tc platform md5).doEncode library target w := by
  rw [doEncode_eq] at hevents
  rw [doEncode_eq, doEncode_eq]
  exact forM_of_agree _ hagree hevents

/-- An event of a turn: the calls are those for its item. -/
def EventFor (engine : Engine τ) (item : EncodingItem) : Event → Prop
  | .transcode input output => input = item.sourcePath ∧ output = item.targetPath
  | .screenshot input output => input = item.sourcePath ∧ output = engine.previewOf item
  | _ => True

theorem Turn.eventsFor {engine : Engine τ} {r : EStateM.Result Fault (World τ) Unit}
    (h : Turn engine item w r) : ∃ events, (Each.left r).events = w.events ++ events ∧
      ∀ event ∈ events, EventFor engine item event := by
  have hcalls : ∀ {t : Tree} {ret : Bool} {w' : World τ},
      Transcoded engine item (w.setTree t) ret w' →
      ∃ calls, w'.events = w.events ++ calls ∧ ∀ event ∈ calls, EventFor engine item event := by
    intro t ret w' hrun
    rcases hrun.calls with ⟨_, calls, hevents, ⟨_, rfl⟩ | ⟨_, rfl⟩⟩
    · exact ⟨[], hevents, by simp⟩
    · exact ⟨_, hevents, by simp [EventFor]⟩
  have hshots : ∀ {w' : World τ} {r' : EStateM.Result Fault (World τ) Unit},
      Previewed engine item w' r' →
      ∃ shots, (Each.left r').events = w'.events ++ shots ∧
        ∀ event ∈ shots, EventFor engine item event := by
    intro w' r' hpreview
    rcases hpreview.events with ⟨_, shots, hevents, rfl | rfl⟩
    · exact ⟨[], hevents, by simp⟩
    · exact ⟨_, hevents, by simp [EventFor]⟩
  -- the calls of a turn, then its screenshot, then the record
  cases h with
  | skipped hskip => exact ⟨[.skipped item], rfl, by simp [EventFor]⟩
  | noDirectory hdue hdir => exact ⟨[], by simp [World.setTree], by simp⟩
  | raised hdue hdir hfree hrun => exact ⟨_, rfl, by simp [EventFor]⟩
  | failed hdue hdir hrun =>
      rcases hcalls hrun with ⟨calls, hevents, hfor⟩
      refine ⟨calls ++ [.failed item], by simp [World.encodeFailed, hevents], ?_⟩
      simpa [or_imp, forall_and, EventFor] using hfor
  | notPreviewed hdue hdir hrun hpreview =>
      rcases hcalls hrun with ⟨calls, hevents, hfor⟩
      rcases hshots hpreview with ⟨shots, hevents', hfor'⟩
      refine ⟨calls ++ shots, by rw [hevents', hevents, List.append_assoc], ?_⟩
      simpa [or_imp, forall_and] using ⟨hfor, hfor'⟩
  | succeeded hdue hdir hrun hpreview =>
      rcases hcalls hrun with ⟨calls, hevents, hfor⟩
      rcases hshots hpreview with ⟨shots, hevents', hfor'⟩
      rw [Each.left_ok] at hevents'
      refine ⟨calls ++ shots ++ [.succeeded item], ?_, ?_⟩
      · simp [World.encodeSucceeded, hevents', hevents]
      · simpa [or_imp, forall_and, EventFor] using ⟨hfor, hfor'⟩

/-- The calls of a pass are those for its items. -/
theorem eventsFor_doEncode (engine : Engine τ) (library target : Str) (w : World τ) :
    ∃ events, (Each.left (engine.doEncode library target w)).events = w.events ++ events ∧
      ∀ event ∈ events, ∃ item ∈ batch w library target, EventFor engine item event := by
  rw [doEncode_eq]
  refine Each.left_forM (P := fun v : World τ => ∃ events, v.events = w.events ++ events ∧
    ∀ event ∈ events, ∃ item ∈ batch w library target, EventFor engine item event) ?_
    ⟨[], by simp [begun], by simp⟩
  rintro item hitem v ⟨events, hevents, hfor⟩
  rcases (turn_spec engine item v).eventsFor with ⟨more, hmore, hfor'⟩
  refine ⟨events ++ more, by rw [hmore, hevents, List.append_assoc], ?_⟩
  intro event hmem
  rcases List.mem_append.1 hmem with hmem | hmem
  · exact hfor event hmem
  · exact ⟨item, hitem, hfor' event hmem⟩

end Agree

/-! ## A pass through the shell -/

variable {σ : Type} (platform : Platform) (libDir : Str) (exec : Program σ) (md5 : Str → Str)

/-- An engine that executes ffmpeg itself. -/
def executedEngine : Engine (Outside σ) where
  transcoder := FFMpegTranscoder.executed libDir exec
  platform := platform
  md5 := md5

/-- The names in the command of a call are plain. -/
def PlainCall (libDir : Str) : Event → Prop
  | .transcode input output => FFMpegTranscoder.PlainNames libDir input output
  | .screenshot input output => FFMpegTranscoder.PlainNames libDir input output
  | _ => True

/-- All file names in the commands for an item are plain. -/
def PlainItem (item : EncodingItem) : Prop :=
  FFMpegTranscoder.PlainNames libDir item.sourcePath item.targetPath ∧
    Shell.QuotedLiteral (File.join [platform.previewPath, item.screenshotSubpath md5])

variable {platform libDir exec md5}

theorem agree_of_plain {events : List Event} (h : ∀ event ∈ events, PlainCall libDir event)
    (other : System σ) :
    Agree (FFMpegTranscoder.executed libDir exec)
      (ffmpegTranscoder platform libDir (Shell.perform exec other)) events where
  beforeTranscode := rfl
  transcode := fun _ _ hmem => FFMpegTranscoder.transcode_executed libDir exec (h _ hmem) platform other
  getScreenshot := fun _ _ hmem =>
    FFMpegTranscoder.getScreenshot_executed libDir exec (h _ hmem) platform other

/-- A pass through the shell is the pass that is meant, exceptions included, if all file names are
plain: those of the queue, and those the scan finds. -/
theorem doEncode_executed {w : World (Outside σ)} {library target : Str}
    (hplain : ∀ item ∈ batch w library target, PlainItem platform libDir md5 item)
    (other : System σ) :
    (ffmpegEngine platform libDir (Shell.perform exec other) md5).doEncode library target w =
      (executedEngine platform libDir exec md5).doEncode library target w := by
  rcases eventsFor_doEncode (executedEngine platform libDir exec md5) library target w with
    ⟨events, hevents, hfor⟩
  -- every call is for an item of the pass, and those are plain
  refine doEncode_of_agree (agree_of_plain ?_ other) hevents
  intro event hmem
  rcases hfor event hmem with ⟨item, hitem, hevent⟩
  have hitem' := hplain item hitem
  cases event with
  | transcode input output =>
      rcases hevent with ⟨rfl, rfl⟩
      exact hitem'.1
  | screenshot input output =>
      rcases hevent with ⟨rfl, rfl⟩
      exact ⟨hitem'.1.1, hitem'.1.2.1, hitem'.2⟩
  | skipped _ => trivial
  | succeeded _ => trivial
  | failed _ => trivial

/-! ## What was executed -/

/-- The argument vectors of what was executed. -/
abbrev Log := List (List Str)

/-- What the transcoder executes for an event. -/
def argsOf (transcodeArgs screenshotArgs : Str → Str → List Str) : Event → Option (List Str)
  | .transcode input output => some (transcodeArgs input output)
  | .screenshot input output => some (screenshotArgs input output)
  | _ => none

/-- The log has what was executed for the events since `w`. -/
def Logged (args : Event → Option (List Str)) (w w' : World (Outside Log)) : Prop :=
  ∃ events, w'.events = w.events ++ events ∧
    w'.transcoder.rest = w.transcoder.rest ++ events.filterMap args

theorem Logged.of_events {args : Event → Option (List Str)} {w w' : World (Outside Log)}
    {events : List Event} (hevents : w'.events = w.events ++ events)
    (hlog : w'.transcoder.rest = w.transcoder.rest ++ events.filterMap args) : Logged args w w' :=
  ⟨events, hevents, hlog⟩

/-- Nothing happened that is in the log. -/
theorem Logged.same {args : Event → Option (List Str)} {w w' : World (Outside Log)}
    (hevents : w'.events = w.events) (hlog : w'.transcoder.rest = w.transcoder.rest) :
    Logged args w w' :=
  ⟨[], by simp [hevents], by simp [hlog]⟩

theorem Logged.trans {args : Event → Option (List Str)} {w w' w'' : World (Outside Log)}
    (h : Logged args w w') (h' : Logged args w' w'') : Logged args w w'' := by
  rcases h with ⟨events, hevents, hlog⟩
  rcases h' with ⟨events', hevents', hlog'⟩
  refine ⟨events ++ events', ?_, ?_⟩
  · rw [hevents', hevents, List.append_assoc]
  · rw [hlog', hlog, List.filterMap_append, List.append_assoc]

/-- A transcoder that executes one program for every call. -/
structure Logs (tc : Transcoder (Outside Log)) (transcodeArgs screenshotArgs : Str → Str → List Str) :
    Prop where
  beforeTranscode : ∀ s, (Each.left (tc.beforeTranscode s)).2.rest = s.2.rest
  transcode : ∀ input output s, (Each.left (tc.transcode input output s)).2.rest =
    s.2.rest ++ [transcodeArgs input output]
  getScreenshot : ∀ input output s, (Each.left (tc.getScreenshot input output s)).2.rest =
    s.2.rest ++ [screenshotArgs input output]

section Logs

variable {engine : Engine (Outside Log)} {transcodeArgs screenshotArgs : Str → Str → List Str}
  (hlogs : Logs engine.transcoder transcodeArgs screenshotArgs) {item : EncodingItem}
  {w w' : World (Outside Log)}

include hlogs

theorem Previewed.logged {r : EStateM.Result Fault (World (Outside Log)) Unit}
    (h : Previewed engine item w r) :
    Logged (argsOf transcodeArgs screenshotArgs) w (Each.left r) := by
  have hbegin := hlogs.beforeTranscode (w.fs, w.transcoder)
  cases h with
  | noDirectory hdir => exact .same rfl rfl
  | notBegun hdir hbefore =>
      rw [hbefore] at hbegin
      exact .same rfl hbegin
  | @raised t f s s' hdir hbefore hshot =>
      have hend := hlogs.getScreenshot item.sourcePath (engine.previewOf item) s
      rw [hbefore] at hbegin
      rw [hshot] at hend
      exact .of_events rfl (hend.trans (congrArg (· ++ _) hbegin))
  | @done t s s' hdir hbefore hshot =>
      have hend := hlogs.getScreenshot item.sourcePath (engine.previewOf item) s
      rw [hbefore] at hbegin
      rw [hshot] at hend
      exact .of_events rfl (hend.trans (congrArg (· ++ _) hbegin))

theorem Transcoded.logged {ret : Bool} (h : Transcoded engine item w ret w') :
    Logged (argsOf transcodeArgs screenshotArgs) w w' := by
  cases h with
  | present hthere => exact .same rfl rfl
  | ran hfree hrun =>
      have hend := hlogs.transcode item.sourcePath item.targetPath (w.fs, w.transcoder)
      rw [hrun] at hend
      exact .of_events rfl hend

theorem Turn.logged {r : EStateM.Result Fault (World (Outside Log)) Unit}
    (h : Turn engine item w r) : Logged (argsOf transcodeArgs screenshotArgs) w (Each.left r) := by
  have hmade : ∀ t, Logged (argsOf transcodeArgs screenshotArgs) w (w.setTree t) := fun _ => .same rfl rfl
  cases h with
  | skipped hskip => exact .of_events rfl (List.append_nil _).symm
  | noDirectory hdue hdir => exact hmade _
  | @raised t f s hdue hdir hfree hrun =>
      have hend := hlogs.transcode item.sourcePath item.targetPath ((w.setTree t).fs, w.transcoder)
      rw [hrun] at hend
      exact .of_events rfl hend
  | failed hdue hdir hrun =>
      exact ((hmade _).trans (hrun.logged hlogs)).trans (.of_events rfl (List.append_nil _).symm)
  | notPreviewed hdue hdir hrun hpreview =>
      exact ((hmade _).trans (hrun.logged hlogs)).trans (hpreview.logged hlogs)
  | succeeded hdue hdir hrun hpreview =>
      exact (((hmade _).trans (hrun.logged hlogs)).trans (hpreview.logged hlogs)).trans
        (.of_events rfl (List.append_nil _).symm)

/-- The log of a pass has the programs for its calls, in order. -/
theorem logged_doEncode (library target : Str) (w : World (Outside Log)) :
    Logged (argsOf transcodeArgs screenshotArgs) w
      (Each.left (engine.doEncode library target w)) := by
  rw [doEncode_eq]
  -- taking the items from the queue is in neither of the two
  have hbegun : Logged (argsOf transcodeArgs screenshotArgs) w (begun w) := .same rfl rfl
  refine Each.left_forM (P := Logged (argsOf transcodeArgs screenshotArgs) w) ?_ hbegun
  intro item _ v hv
  exact hv.trans ((turn_spec engine item v).logged hlogs)

end Logs

theorem logs_executed {exec : Program Log}
    (hrecords : ∀ args s, (exec args s).2.2.rest = s.2.rest ++ [args]) :
    Logs (FFMpegTranscoder.executed libDir exec) (FFMpegTranscoder.transcodeArgs libDir)
      (FFMpegTranscoder.screenshotArgs libDir) where
  beforeTranscode := fun _ => rfl
  transcode := fun input output s =>
    hrecords (FFMpegTranscoder.transcodeArgs libDir input output)
      (s.1, FFMpegTranscoder.setLibraryPath libDir s.2)
  getScreenshot := fun input output s =>
    hrecords (FFMpegTranscoder.screenshotArgs libDir input output)
      (s.1, FFMpegTranscoder.setLibraryPath libDir s.2)

/-- The words of a command as far as the shell reads them. -/
def wordsOf (text : Str) : List Str :=
  (Shell.simpleCommand text).getD []

/-- What the shell does not read is in the log as nothing. -/
def unread : System Log := fun _ s =>
  (.notStarted, (s.1, { s.2 with rest := s.2.rest ++ [[]] }))

theorem logs_ffmpeg {exec : Program Log}
    (hrecords : ∀ args s, (exec args s).2.2.rest = s.2.rest ++ [args]) :
    Logs (ffmpegTranscoder platform libDir (Shell.perform exec unread))
      (fun input output => wordsOf (FFMpegTranscoder.getTranscodeCommand libDir input output))
      (fun input output => wordsOf (FFMpegTranscoder.getScreenshotCommand libDir input output)) := by
  have hperform : ∀ text s, (Shell.perform exec unread text s).2.2.rest = s.2.rest ++ [wordsOf text] := by
    intro text s
    rw [Shell.perform, wordsOf]
    split
    · next argv hread => rw [hrecords, hread, Option.getD_some]
    · next hread => rw [hread, Option.getD_none, unread]
  refine ⟨fun s => ?_, fun input output s => ?_, fun input output s => ?_⟩
  · exact congrArg (fun r => (Each.left r).2.rest)
      (ffmpegTranscoder_beforeTranscode platform libDir (Shell.perform exec unread) s.1 s.2)
  · rw [ffmpegTranscoder_transcode]
    exact hperform _ _
  · rw [ffmpegTranscoder_getScreenshot]
    exact hperform _ _

/-! ## When the shell makes no difference -/

theorem eq_of_filterMap {α β : Type} {f g : α → Option β} (hsome : ∀ x, (f x).isSome = (g x).isSome) :
    ∀ {xs : List α}, xs.filterMap f = xs.filterMap g → ∀ x ∈ xs, f x = g x := by
  intro xs
  induction xs with
  | nil => simp
  | cons x xs ih =>
      intro h y hy
      have hx := hsome x
      cases hf : f x with
      | none =>
          have hg : g x = none := by simpa [hf] using hx.symm
          rw [List.filterMap_cons_none hf, List.filterMap_cons_none hg] at h
          rcases List.mem_cons.1 hy with rfl | hy
          · rw [hf, hg]
          · exact ih h y hy
      | some b =>
          have hthere : (g x).isSome = true := by simpa [hf] using hx.symm
          rcases Option.isSome_iff_exists.1 hthere with ⟨c, hg⟩
          rw [List.filterMap_cons_some hf, List.filterMap_cons_some hg] at h
          rcases List.mem_cons.1 hy with rfl | hy
          · rw [hf, hg, (List.cons.inj h).1]
          · exact ih (List.cons.inj h).2 y hy

/-- A command that is read as the program that is meant has plain names. -/
theorem plainCall_of_args {event : Event}
    (h : argsOf (FFMpegTranscoder.transcodeArgs libDir) (FFMpegTranscoder.screenshotArgs libDir) event =
      argsOf (fun input output => wordsOf (FFMpegTranscoder.getTranscodeCommand libDir input output))
        (fun input output => wordsOf (FFMpegTranscoder.getScreenshotCommand libDir input output))
        event) : PlainCall libDir event := by
  -- there is a program in the vector that is meant, so the shell read a command
  have hread : ∀ {text : Str} {cmd : Str} {args : List Str}, cmd :: args = wordsOf text →
      Shell.simpleCommand text = some (cmd :: args) := by
    intro text cmd args hwords
    rw [wordsOf] at hwords
    cases hcommand : Shell.simpleCommand text with
    | none => simp [hcommand] at hwords
    | some words => rw [hwords, hcommand, Option.getD_some]
  cases event with
  | transcode input output =>
      exact (FFMpegTranscoder.transcodeCommand_read_iff libDir input output).1
        (hread (Option.some.inj h))
  | screenshot input output =>
      exact (FFMpegTranscoder.screenshotCommand_read_iff libDir input output).1
        (hread (Option.some.inj h))
  | skipped _ => trivial
  | succeeded _ => trivial
  | failed _ => trivial

/-- The calls that a pass makes when ffmpeg is executed directly. -/
def callsOf (platform : Platform) (libDir : Str) (exec : Program σ) (md5 : Str → Str)
    (library target : Str) (w : World (Outside σ)) : List Event :=
  (Each.left ((executedEngine platform libDir exec md5).doEncode library target w)).events.drop
    w.events.length

/-- A pass through the shell is the pass that is meant, for every shell that executes the simple
commands it reads, if and only if the names in all calls of the latter are plain.  What ffmpeg does
with the files makes no difference to this. -/
theorem pass_executed_iff {exec : Program Log}
    (hrecords : ∀ args s, (exec args s).2.2.rest = s.2.rest ++ [args]) (platform : Platform)
    (libDir : Str) (md5 : Str → Str) (library target : Str) (w : World (Outside Log)) :
    (∀ other, (ffmpegEngine platform libDir (Shell.perform exec other) md5).doEncode library target w =
        (executedEngine platform libDir exec md5).doEncode library target w) ↔
      ∀ event ∈ callsOf platform libDir exec md5 library target w, PlainCall libDir event := by
  rcases @logged_doEncode (executedEngine platform libDir exec md5) _ _ (logs_executed hrecords)
    library target w with ⟨events, hevents, hlog⟩
  have hcalls : callsOf platform libDir exec md5 library target w = events := by
    rw [callsOf, hevents, List.drop_left]
  rw [hcalls]
  constructor
  · intro hsame
    rcases @logged_doEncode (ffmpegEngine platform libDir (Shell.perform exec unread) md5) _ _
      (logs_ffmpeg hrecords) library target w with ⟨events', hevents', hlog'⟩
    rw [hsame unread] at hevents' hlog'
    -- both logs are the same, so what is read is what is meant
    have hsplit : events' = events := List.append_cancel_left (hevents'.symm.trans hevents)
    subst hsplit
    have hlogs := List.append_cancel_left (hlog.symm.trans hlog')
    intro event hmem
    refine plainCall_of_args (eq_of_filterMap ?_ hlogs event hmem)
    intro x
    cases x <;> rfl
  · intro hplain other
    exact doEncode_of_agree (agree_of_plain hplain other) hevents

end Engine

namespace Sample

/-- A program that does nothing but put its arguments into the log. -/
def recorder : Program Engine.Log := fun args s =>
  (.exited 0, (s.1, { s.2 with rest := s.2.rest ++ [args] }))

/-- A library with a video that is named like a command substitution. -/
def substituted : World (Outside Engine.Log) :=
  world { environ := fun _ => none, rest := [] }
    ((Tree.empty 8).put [] "$(id).avi".toList (.file true))

end Sample

theorem pass_executed_iff_sample :
    ¬ ∀ other, (Engine.ffmpegEngine Sample.platform "/opt/yikes".toList
        (Shell.perform Sample.recorder other) id).doEncode ".".toList "iPod".toList Sample.substituted =
      (Engine.executedEngine Sample.platform "/opt/yikes".toList Sample.recorder id).doEncode
        ".".toList "iPod".toList Sample.substituted := by
  intro h
  rw [Engine.pass_executed_iff (fun _ _ => rfl)] at h
  have hmem : Event.transcode "./$(id).avi".toList "iPod/$(id).mp4".toList ∈
      Engine.callsOf Sample.platform "/opt/yikes".toList Sample.recorder id ".".toList "iPod".toList
        Sample.substituted := by
    decide +kernel
  have hplain : FFMpegTranscoder.PlainNames "/opt/yikes".toList "./$(id).avi".toList
      "iPod/$(id).mp4".toList := h _ hmem
  exact absurd hplain.2.1 (by decide)

end Yikes
