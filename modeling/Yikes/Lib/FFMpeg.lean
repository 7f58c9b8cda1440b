import Yikes.Lib.Engine

/-!
# FFMpeg — the transcoder that runs ffmpeg (`ExternalTranscoder`, `FFMpegTranscoder`)

The commands are texts for the shell.  What a command does is not known here: `system` is what
`Kernel#system` does with a command text, and how the command ends.
-/

namespace Yikes

open Ruby

/-- What an external command acts on besides the files. -/
structure Outside (σ : Type) where
  environ : Str → Option Str
  rest : σ

/-- `Kernel#system` -/
abbrev System (σ : Type) :=
  Str → FileSystem × Outside σ → CommandEnd × (FileSystem × Outside σ)

section

variable {σ : Type} (platform : Platform) (system : System σ)

def runCommand (cmd : Str) : EStateM Fault (FileSystem × Outside σ) Bool := fun s =>
  let r := platform.runExternalCommand system cmd s
  .ok r.1 r.2

/-- The methods of `ExternalTranscoder`, for a class with the given three. -/
def externalTranscoder (beforeTranscode : EStateM Fault (FileSystem × Outside σ) Unit)
    (getTranscodeCommand getScreenshotCommand : Str → Str → Str) : Transcoder (Outside σ) where
  beforeTranscode := beforeTranscode
  transcode := fun input output => do
    beforeTranscode
    runCommand platform system (getTranscodeCommand input output)
  getScreenshot := fun input output => do
    beforeTranscode
    discard (runCommand platform system (getScreenshotCommand input output))

end

namespace FFMpegTranscoder

def MiscParams : List Str :=
  ["-y", "-threads", "auto", "-maxrate", "3584000", "-bufsize", "1536000", "-async",
    "1"].map String.toList

def VideoParams : List Str :=
  ["-vcodec", "libx264", "-r", "30000/1001", "-b", "1536000", "-level", "30", "-mbd", "2", "-cmp",
    "2", "-subcmp", "2", "-g", "300", "-qmin", "20", "-qmax", "31", "-flags", "+loop", "-chroma",
    "1", "-partitions", "partp8x8+partb8x8", "-flags2", "+mixed_refs", "-me_method", "8", "-subq",
    "7", "-trellis", "2", "-refs", "1", "-coder", "0", "-me_range", "16", "-bf", "0",
    "-sc_threshold", "40", "-keyint_min", "25", "-s", "488x328", "-croptop", "4", "-cropbottom",
    "4", "-cropleft", "4", "-cropright", "4", "-aspect", "4:3"].map String.toList

def AudioParams : List Str :=
  ["-acodec", "libfaac", "-ac", "2", "-ar", "44100", "-ab", "128000", "-aq", "120", "-alang",
    "ENG"].map String.toList

def ScreenshotParams : List Str :=
  ["-f", "mjpeg", "-s", "244x164", "-vframes", "1", "-ss", "2"].map String.toList

variable (libDir : Str)

/-- `FFMpegPath`, for the directory `AppConfig::LibDir`. -/
def ffmpegPath : Str :=
  File.join [libDir, "libexec".toList, "bin".toList, "ffmpeg".toList]

def getTranscodeCommand (input output : Str) : Str :=
  [' '].intercalate
    ([ffmpegPath libDir ++ " -i \"".toList ++ input ++ "\"".toList] ++ MiscParams ++ VideoParams ++
      AudioParams ++ ["\"".toList ++ output ++ "\"".toList])

def getScreenshotCommand (input output : Str) : Str :=
  [' '].intercalate
    ([ffmpegPath libDir ++ " -i \"".toList ++ input ++ "\"".toList] ++ ScreenshotParams ++
      ["\"".toList ++ output ++ "\"".toList])

variable {σ : Type}

/-- Commands find the libraries that come with ffmpeg. -/
def setLibraryPath (s : Outside σ) : Outside σ :=
  let libpath := File.join [libDir, "libexec".toList, "lib".toList]
  { s with
    environ := Function.update (Function.update s.environ "LD_LIBRARY_PATH".toList libpath)
      "DYLD_LIBRARY_PATH".toList libpath }

def beforeTranscode : EStateM Fault (FileSystem × Outside σ) Unit :=
  modify fun s => (s.1, setLibraryPath libDir s.2)

end FFMpegTranscoder

def ffmpegTranscoder {σ : Type} (platform : Platform) (libDir : Str) (system : System σ) :
    Transcoder (Outside σ) :=
  externalTranscoder platform system (FFMpegTranscoder.beforeTranscode libDir)
    (FFMpegTranscoder.getTranscodeCommand libDir) (FFMpegTranscoder.getScreenshotCommand libDir)

section

variable {σ : Type} (platform : Platform) (libDir : Str) (system : System σ) (input output : Str)
  (fs : FileSystem) (s : Outside σ)

theorem ffmpegTranscoder_beforeTranscode :
    (ffmpegTranscoder platform libDir system).beforeTranscode (fs, s) =
      .ok () (fs, FFMpegTranscoder.setLibraryPath libDir s) := rfl

/-- However the command ends, the answer is true. -/
theorem ffmpegTranscoder_transcode :
    (ffmpegTranscoder platform libDir system).transcode input output (fs, s) =
      .ok true (system (FFMpegTranscoder.getTranscodeCommand libDir input output)
        (fs, FFMpegTranscoder.setLibraryPath libDir s)).2 := by
  have hrun := platform.runExternalCommand_eq system
    (FFMpegTranscoder.getTranscodeCommand libDir input output)
    (fs, FFMpegTranscoder.setLibraryPath libDir s)
  calc
    _ = runCommand platform system (FFMpegTranscoder.getTranscodeCommand libDir input output)
          (fs, FFMpegTranscoder.setLibraryPath libDir s) := rfl
    _ = _ := by simp only [runCommand, hrun]

theorem ffmpegTranscoder_getScreenshot :
    (ffmpegTranscoder platform libDir system).getScreenshot input output (fs, s) =
      .ok () (system (FFMpegTranscoder.getScreenshotCommand libDir input output)
        (fs, FFMpegTranscoder.setLibraryPath libDir s)).2 := by
  have hrun := platform.runExternalCommand_eq system
    (FFMpegTranscoder.getScreenshotCommand libDir input output)
    (fs, FFMpegTranscoder.setLibraryPath libDir s)
  have hcall : (ffmpegTranscoder platform libDir system).getScreenshot input output (fs, s) =
      discard (runCommand platform system
        (FFMpegTranscoder.getScreenshotCommand libDir input output))
        (fs, FFMpegTranscoder.setLibraryPath libDir s) := rfl
  rw [hcall]
  simp only [discard, Functor.discard, Functor.mapConst, EStateM.map, runCommand, Function.comp,
    hrun]

end

end Yikes
