import Yikes.Lib.Loaded
import Yikes.Lib.Main
import Yikes.Ruby.Each
import Yikes.Ruby.Loops

/-!
# Session — runs of the program (`Yikes#run` in `lib/main.rb`)

A session is what `run` does in the background, once the options are parsed: it loads the engines
that the sessions before it saved, adds the one it was asked for, becomes a daemon, polls, and saves the
engines again.  All that two sessions share is the files (`Home`).

`Start.run` is all of `run`, from the command line on.
-/

namespace Yikes

open Ruby

/-- The files, with those of the settings directory, and the rest of the world. -/
structure Home (τ : Type) where
  world : World τ
  /-- the bytes of the files in the settings directory -/
  data : Loc → List UInt8

/-- How far a session gets. -/
inductive Ending
  /-- the process ends before `save_state` opens the file -/
  | killed
  /-- the process ends when `save_state` has opened the file and written so many bytes -/
  | stopped (count : Nat)
  | done
  deriving DecidableEq, Repr

structure Session where
  cwd : Loc
  parsing : Parsing
  /-- rounds of the polling loop, after which a signal ends it if nothing did before -/
  rounds : Nat
  /-- looks at `$do_quit` that find it unset -/
  looks : Nat
  ending : Ending
  deriving DecidableEq, Repr

namespace Home

variable {τ : Type}

/-- The files of the settings directory. -/
def files (home : Home τ) : FileSystem where
  tree := home.world.settings
  data := home.data

def setFiles (home : Home τ) (fs : FileSystem) : Home τ where
  world := { home.world with settings := fs.tree }
  data := fs.data

def setSettings (home : Home τ) (t : Tree) : Home τ :=
  { home with world := { home.world with settings := t } }

/-- `Dir.chdir` -/
def chdir (home : Home τ) (dir : Loc) : Home τ :=
  { home with
    world :=
      { home.world with
        fs := home.world.fs.setTree (home.world.fs.tree.chdir dir)
        settings := home.world.settings.chdir dir } }

end Home

abbrev SessionM (τ : Type) := EStateM Fault (Home τ)

namespace Session

variable {κ τ : Type} (yaml : Yaml κ) (platform : Platform) (engineOf : κ → Engine τ)
  (odd : Value κ → World τ → Value κ × World τ) (transcoder : κ) (session : Session)

def stateYaml : Str := "state.yaml".toList

/-- The path that `statePath` returns. -/
def stateFile : Str :=
  File.join [platform.settingsPath, stateYaml]

/-- `File.join(Platform.settings_dir, 'state.yaml')` -/
def statePath : SessionM τ Str := fun home =>
  match platform.settingsDir home.world.settings with
  | .ok (dir, t) => .ok (File.join [dir, stateYaml]) (home.setSettings t)
  | .error (e, t) => .error (.errno e) (home.setSettings t)

def loadEngines : SessionM τ (Value κ) := do
  let path ← statePath platform
  let home ← get
  return EngineManager.loadState yaml home.files path

def addEngine (engines : Value κ) : SessionM τ (Value κ) := fun home =>
  match EngineManager.addEngineTo engines session.parsing.results.library
      session.parsing.results.target transcoder with
  | .ok (_, engines') => .ok engines' home
  | .error e => .error e home

/-- `daemonize`, in the process that goes on. -/
def daemonize : SessionM τ Unit := fun home =>
  if home.world.fs.tree.isDir Main.daemonDir then .ok () (home.chdir Main.daemonDir)
  else .error (.errno .ENOENT) home

/-- `poll_directory_and_encode`, whose exceptions are logged.  `odd` is what becomes of engines that are
no registry. -/
def poll (engines : Value κ) : SessionM τ (Value κ) := fun home =>
  match Registry.ofValue? engines with
  | some r =>
      let p := Each.left (EngineManager.pollDirectoryAndEncode engineOf session.rounds
        { engines := r, world := home.world, looks := session.looks })
      .ok p.engines.toValue { home with world := p.world }
  | none =>
      let left := odd engines home.world
      .ok left.1 { home with world := left.2 }

/-- How far `save_state` gets. -/
def reached (engines : Value κ) : Ending → Option Nat
  | .killed => none
  | .stopped count => some count
  | .done =>
      match yaml.dump engines with
      | .error _ => some 0
      | .ok text => some text.length

def saveEngines (engines : Value κ) : SessionM τ Unit := do
  let path ← statePath platform
  modify fun home => home.setFiles
    (EngineManager.saveState yaml home.files path engines (reached yaml engines session.ending))

/-- From the polling loop on. -/
def pollAndSave (engines : Value κ) : SessionM τ Unit := do
  let polled ← poll engineOf odd session engines
  unless session.ending = .killed do
    saveEngines yaml platform session polled

def run : SessionM τ Unit := do
  modify (Home.chdir · session.cwd)
  let loaded ← loadEngines yaml platform
  let engines ← addEngine transcoder session loaded
  if Main.shouldDaemonize session.parsing.level then
    daemonize
  pollAndSave yaml platform engineOf odd session engines

/-- One session after the other. -/
def runAll (sessions : List Session) (home : Home τ) : Home τ :=
  sessions.foldl (fun home session =>
    Each.left (session.run yaml platform engineOf odd transcoder home)) home

end Session

/-! ## The command line -/

/-- A start of the program. -/
structure Start where
  cwd : Loc
  args : List Str
  rounds : Nat
  looks : Nat
  ending : Ending
  deriving DecidableEq, Repr

namespace Start

variable {κ τ : Type} (yaml : Yaml κ) (platform : Platform) (engineOf : κ → Engine τ)
  (odd : Value κ → World τ → Value κ × World τ) (transcoder : κ) (start : Start)

def session (parsing : Parsing) : Session where
  cwd := start.cwd
  parsing := parsing
  rounds := start.rounds
  looks := start.looks
  ending := start.ending

/-- `Engine.new(FFMpegTranscoder, results[:library])` and its `do_encode`. -/
def foreground (results : Results) : SessionM τ Unit := fun home =>
  let fresh := { home.world with state := State.new results.library }
  match (engineOf transcoder).doEncode results.library results.target fresh with
  | .ok _ w => .ok () { home with world := w }
  | .error e w => .error e { home with world := w }

/-- `run`; `false` when it returns -1. -/
def run : EStateM Raised (Home τ) Bool := fun home₀ =>
  let home := home₀.chdir start.cwd
  match Main.parse home.world.fs.tree .ERROR start.args with
  | .error (.parse .MissingArgument) | .error (.parse .InvalidOption) | .ok none => .ok false home
  | .error raised => .error raised home
  | .ok (some p) =>
      let result :=
        if p.results.background then
          (start.session p).run yaml platform engineOf odd transcoder home
        else foreground engineOf transcoder p.results home
      match result with
      | .ok _ home' => .ok true home'
      | .error e home' => .error (.fault e) home'

/-- One start after the other, up to one that raises. -/
def runAll (starts : List Start) : EStateM Raised (Home τ) Unit :=
  starts.forM fun start => do
    let _ ← start.run yaml platform engineOf odd transcoder

end Start

end Yikes
