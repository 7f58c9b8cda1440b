import Yikes.Lib.Platform
import Yikes.Lib.State
import Yikes.Lib.Utility

/-!
# Engine — one pass over a library (`lib/engine.rb`)

An `Engine` lists the videos of a library, queues them, and takes them from the queue in turn: each is
skipped or converted.  Its methods act on a `World`, the files and everything else they read and
write, and may raise (`EngineM`); what was done up to then stays done.

The events of a world are the calls of the transcoder and the outcomes, in order.  The settings
directory, whose name starts with a dot so that no listing goes into it, is a tree of its own; the
screenshots in it are part of what the transcoder acts on besides the files.
-/

namespace Yikes

open Ruby

def AllowedFiletypes : List Str :=
  [".avi".toList, ".mov".toList, ".mp4".toList, ".wmv".toList]

/-- An exception. -/
inductive Fault
  | errno (e : Errno)
  | raised (message : Str)
  deriving DecidableEq, Repr

/-- The transcoder class of an engine; `τ` is what its methods act on besides the files. -/
structure Transcoder (τ : Type) where
  beforeTranscode : EStateM Fault (FileSystem × τ) Unit
  transcode (input output : Str) : EStateM Fault (FileSystem × τ) Bool
  getScreenshot (input output : Str) : EStateM Fault (FileSystem × τ) Unit

inductive Event
  | skipped (item : EncodingItem)
  | transcode (input output : Str)
  | screenshot (input output : Str)
  | succeeded (item : EncodingItem)
  | failed (item : EncodingItem)
  deriving DecidableEq, Repr

structure World (τ : Type) where
  fs : FileSystem
  /-- the tree of the settings directory -/
  settings : Tree
  transcoder : τ
  state : State
  clock : Time
  events : List Event

abbrev EngineM (τ : Type) := EStateM Fault (World τ)

structure Engine (τ : Type) where
  transcoder : Transcoder τ
  platform : Platform
  md5 : Str → Str

namespace World

variable {τ : Type}

def note (w : World τ) (event : Event) : World τ :=
  { w with events := w.events ++ [event] }

/-- What a method of the transcoder leaves. -/
def leave (w : World τ) (s : FileSystem × τ) : World τ :=
  { w with fs := s.1, transcoder := s.2 }

def setTree (w : World τ) (t : Tree) : World τ :=
  { w with fs := w.fs.setTree t }

def encodeSucceeded (w : World τ) (item : EncodingItem) : World τ :=
  { w with
    state := w.state.encodeSucceeded item w.clock
    clock := w.clock + 1
    events := w.events ++ [.succeeded item] }

def encodeFailed (w : World τ) (item : EncodingItem) : World τ :=
  { w with
    state := w.state.encodeFailed item w.clock
    clock := w.clock + 1
    events := w.events ++ [.failed item] }

end World

namespace Engine

variable {τ : Type} (engine : Engine τ)

/-! ## Steps of a conversion -/

/-- A method of the transcoder. -/
def call {α : Type} (m : EStateM Fault (FileSystem × τ) α) : EngineM τ α := fun w =>
  match m (w.fs, w.transcoder) with
  | .ok a s => .ok a (w.leave s)
  | .error e s => .error e (w.leave s)

def mkdir_p (path : Str) : EngineM τ Unit := fun w =>
  match w.fs.tree.mkdir_p path with
  | .ok t => .ok () (w.setTree t)
  | .error (e, t) => .error (.errno e) (w.setTree t)

/-- `EncodingItem#screenshot_path` makes the directory it is in. -/
def screenshotPath (item : EncodingItem) : EngineM τ Str := fun w =>
  match engine.platform.screenshotDir w.settings with
  | .ok (dir, t) => .ok (File.join [dir, item.screenshotSubpath engine.md5]) { w with settings := t }
  | .error (e, t) => .error (.errno e) { w with settings := t }

def shouldEncode (fs : FileSystem) (item : EncodingItem) : Bool :=
  if fs.exist? item.targetPath then fs.size item.targetPath ≤ 256 else true

def getScreenshot (input output : Str) : EngineM τ Unit := do
  call engine.transcoder.beforeTranscode
  modify (World.note · (.screenshot input output))
  call (engine.transcoder.getScreenshot input output)

def transcode (input output : Str) : EngineM τ Bool := do
  let w ← get
  if w.fs.exist? output then
    return true
  modify (World.note · (.transcode input output))
  call (engine.transcoder.transcode input output)

/-- `get_screenshot(item.source_path, item.screenshot_path)` -/
def preview (item : EncodingItem) : EngineM τ Unit := do
  let path ← engine.screenshotPath item
  engine.getScreenshot item.sourcePath path

def createPathAndConvert (item : EncodingItem) : EngineM τ Bool := do
  mkdir_p (File.dirname item.targetPath)
  let ret ← engine.transcode item.sourcePath item.targetPath
  if ret then
    engine.preview item
  return ret

def convertFile (item : EncodingItem) : EngineM τ Unit := do
  let ret ← engine.createPathAndConvert item
  if ret then
    modify (World.encodeSucceeded · item)
  else
    modify (World.encodeFailed · item)

/-! ## A pass -/

/-- The files `enqueue_files_to_encode` collects. -/
def videos (t : Tree) (library : Str) : List Str :=
  (getFileList t library).filter fun x => AllowedFiletypes.contains (File.extname x).downcase

def items (t : Tree) (library target : Str) : List EncodingItem :=
  (videos t library).map fun x => EncodingItem.new library x target

def enqueueFilesToEncode (library target : Str) : EngineM τ Unit :=
  modify fun w => { w with state := w.state.addToQueue (items w.fs.tree library target) }

/-- `dequeue_items(items_count)` -/
def dequeueItems : EngineM τ (List EncodingItem) :=
  modifyGet fun w =>
    let r := w.state.dequeueItems w.state.itemsCount
    (r.1, { w with state := r.2 })

/-- One round of the loop of `do_encode`. -/
def turn (item : EncodingItem) : EngineM τ Unit := do
  let w ← get
  if shouldEncode w.fs item then
    engine.convertFile item
  else
    modify (World.note · (.skipped item))

def doEncode (library target : Str) : EngineM τ Unit := do
  enqueueFilesToEncode library target
  let items ← dequeueItems
  items.forM engine.turn

end Engine

end Yikes
