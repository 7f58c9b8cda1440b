import Yikes.Lib.FFMpeg
import Yikes.Posix.Shell

/-!
# Command — which file names reach ffmpeg

The commands put the two file names between double quotes and the path of ffmpeg in front as it is.
The shell reads the words back that were meant exactly for names that mean nothing inside double
quotes, and an install directory that means nothing outside of them (`commands_read_iff`).
-/

namespace Yikes
namespace FFMpegTranscoder

open Ruby Posix

/-- A command of this transcoder, as a line of written words. -/
def writtenArgs (params : List Str) (input output : Str) : List Shell.Written :=
  [.bare "-i".toList, .quoted input] ++ params.map .bare ++ [.quoted output]

/-- The argument vector that is meant. -/
def argv (libDir : Str) (params : List Str) (input output : Str) : List Str :=
  ffmpegPath libDir :: "-i".toList :: input :: (params ++ [output])

/-- Names that pass the shell unchanged. -/
def PlainNames (libDir input output : Str) : Prop :=
  (Shell.Literal (ffmpegPath libDir) ∧ Shell.isAssignment (ffmpegPath libDir) = false) ∧
    Shell.QuotedLiteral input ∧ Shell.QuotedLiteral output

theorem command_eq (libDir : Str) (params : List Str) (input output : Str) :
    [' '].intercalate
        ([ffmpegPath libDir ++ " -i \"".toList ++ input ++ "\"".toList] ++ params ++
          ["\"".toList ++ output ++ "\"".toList]) =
      ffmpegPath libDir ++ Shell.after (writtenArgs params input output) := by
  have hfront : ffmpegPath libDir ++ " -i \"".toList ++ input ++ "\"".toList =
      ffmpegPath libDir ++ Shell.after [.bare "-i".toList, .quoted input] := by
    simp
  have hrest : params ++ ["\"".toList ++ output ++ "\"".toList] =
      (params.map Shell.Written.bare ++ [Shell.Written.quoted output]).map Shell.Written.text := by
    simp [Function.comp_def]
  calc
    _ = [' '].intercalate ((ffmpegPath libDir ++ " -i \"".toList ++ input ++ "\"".toList) ::
          (params ++ ["\"".toList ++ output ++ "\"".toList])) := by
        simp only [List.cons_append, List.nil_append]
    _ = ffmpegPath libDir ++ Shell.after [.bare "-i".toList, .quoted input] ++
          Shell.after (params.map .bare ++ [.quoted output]) := by
        rw [hrest, Shell.intercalate_text, hfront]
    _ = ffmpegPath libDir ++ Shell.after (writtenArgs params input output) := by
        simp only [writtenArgs, Shell.after_append, List.append_assoc]

theorem sep_mem_ffmpegPath (libDir : Str) : '/' ∈ ffmpegPath libDir := by
  have hlast : ∀ a : Str, '/' ∈ File.join2 a "ffmpeg".toList := by
    intro a
    by_cases ha : a.getLast? = some '/'
    · simp [File.join2, ha, List.mem_of_getLast? ha]
    · simp [File.join2, ha]
  exact hlast _

theorem command_read_iff {params : List Str}
    (hparams : ∀ w ∈ params, Shell.Literal w ∧ (Shell.Written.bare w).Visible)
    (libDir input output : Str) :
    Shell.simpleCommand (ffmpegPath libDir ++ Shell.after (writtenArgs params input output)) =
        some (argv libDir params input output) ↔ PlainNames libDir input output := by
  have hsep := sep_mem_ffmpegPath libDir
  -- no reserved word has a separator, which the path of ffmpeg always has
  have hreserved : ffmpegPath libDir ∉ Shell.reserved := by
    intro hmem
    have hnone : ∀ w ∈ Shell.reserved, '/' ∉ w := by decide
    exact hnone _ hmem hsep
  have hvisible : ∀ v ∈ Shell.Written.bare (ffmpegPath libDir) :: writtenArgs params input output,
      v.Visible := by
    intro v hv
    simp only [writtenArgs, List.mem_cons, List.mem_append, List.mem_map, List.not_mem_nil,
      or_false] at hv
    rcases hv with rfl | ((rfl | rfl) | ⟨w, hw, rfl⟩) | rfl
    · exact ⟨'/', hsep, rfl⟩
    · decide
    · trivial
    · exact (hparams w hw).2
    · trivial
  have hwords : argv libDir params input output =
      ffmpegPath libDir :: (writtenArgs params input output).map Shell.Written.word := by
    simp [argv, writtenArgs, Function.comp_def]
  rw [hwords, Shell.simpleCommand_line_iff hvisible]
  constructor
  · rintro ⟨⟨hassign, _⟩, hreads⟩
    have hpath := hreads (.bare (ffmpegPath libDir)) (by simp)
    have hinput := hreads (.quoted input) (by simp [writtenArgs])
    have houtput := hreads (.quoted output) (by simp [writtenArgs])
    exact ⟨⟨hpath, hassign⟩, hinput, houtput⟩
  · rintro ⟨⟨hpath, hassign⟩, hinput, houtput⟩
    refine ⟨⟨hassign, hreserved⟩, ?_⟩
    intro v hv
    simp only [writtenArgs, List.mem_cons, List.mem_append, List.mem_map, List.not_mem_nil,
      or_false] at hv
    rcases hv with rfl | ((rfl | rfl) | ⟨w, hw, rfl⟩) | rfl
    · exact hpath
    · decide
    · exact hinput
    · exact (hparams w hw).1
    · exact houtput

/-- The parameters of a conversion are read as they stand. -/
theorem reads_params : ∀ w ∈ MiscParams ++ VideoParams ++ AudioParams,
    Shell.Literal w ∧ (Shell.Written.bare w).Visible := by
  decide +kernel

theorem getTranscodeCommand_eq (libDir input output : Str) :
    getTranscodeCommand libDir input output = ffmpegPath libDir ++
      Shell.after (writtenArgs (MiscParams ++ VideoParams ++ AudioParams) input output) := by
  rw [← command_eq]
  simp only [getTranscodeCommand, List.append_assoc]

/-- For every install directory and every two names, each of the two commands is read as the one
command that is meant, with the names word for word, if and only if the names are plain. -/
theorem commands_read_iff (libDir input output : Str) :
    (Shell.simpleCommand (getTranscodeCommand libDir input output) =
        some (argv libDir (MiscParams ++ VideoParams ++ AudioParams) input output) ↔
      PlainNames libDir input output) ∧
    (Shell.simpleCommand (getScreenshotCommand libDir input output) =
        some (argv libDir ScreenshotParams input output) ↔ PlainNames libDir input output) := by
  have hscreenshot : ∀ w ∈ ScreenshotParams, Shell.Literal w ∧ (Shell.Written.bare w).Visible := by
    decide
  constructor
  · rw [getTranscodeCommand_eq]
    exact command_read_iff reads_params libDir input output
  · rw [getScreenshotCommand, command_eq]
    exact command_read_iff hscreenshot libDir input output

/-- A file name with a command substitution in it. -/
theorem substitution_not_read :
    Shell.simpleCommand (getTranscodeCommand "/opt/yikes".toList "/v/$(id).avi".toList
        "/t/$(id).mp4".toList) ≠
      some (argv "/opt/yikes".toList (MiscParams ++ VideoParams ++ AudioParams)
        "/v/$(id).avi".toList "/t/$(id).mp4".toList) := by
  intro hread
  rw [getTranscodeCommand_eq, command_read_iff reads_params] at hread
  have hinput : Shell.QuotedLiteral "/v/$(id).avi".toList := hread.2.1
  revert hinput
  decide

end FFMpegTranscoder
end Yikes
