import Yikes.Lib.Manager
import Yikes.Ruby.OptionParser
import Yikes.Ruby.Realpath

/-!
# Main — the options and the two modes of the program (`lib/main.rb`, `lib/daemonize.rb`)

`Main.parse` reads the argument list; a directory that is given is replaced by its real path at once.
`Main.run` then makes one pass in the foreground, or adds an engine and polls in the background, from
another working directory if the process becomes a daemon.

What matters of a pass here is the call of `do_encode` (`Encoding`): its two paths, and the working
directory they are read in.
-/

namespace Yikes

open Ruby

inductive Opt
  | library
  | target
  | background
  | rate
  | port
  | help
  | debug
  | verbose
  | version
  deriving DecidableEq, Repr

/-- `$logging_level`, as far as the program sets it. -/
inductive Level
  | DEBUG
  | INFO
  | ERROR
  deriving DecidableEq, Repr

/-- What ends `parse` early. -/
inductive Raised
  | parse (error : OptionParser.ParseError)
  | fault (fault : Fault)
  deriving DecidableEq, Repr

/-- The results of `parse`; `rate` and `port` are the texts that `to_f` and `to_i` take. -/
structure Results where
  target : Str := "iPod".toList
  library : Str := ".".toList
  background : Bool := false
  rate : Option Str := none
  port : Option Str := none
  deriving DecidableEq, Repr

/-- What the blocks of the options act on. -/
structure Parsing where
  results : Results
  level : Level
  deriving DecidableEq, Repr

/-- A call of `do_encode`. -/
structure Encoding where
  cwd : Loc
  library : Str
  target : Str
  deriving DecidableEq, Repr

/-- The directories that are scanned and written. -/
def Encoding.dirs (encoding : Encoding) : Loc × Loc :=
  (Loc.absolute encoding.cwd encoding.library, Loc.absolute encoding.cwd encoding.target)

namespace Main

/-! ## `parse` -/

/-- The options of `on`, and those of `on_tail`. -/
def switches : List (List (OptionParser.Switch Opt)) :=
  [[{ option := .library, short := some 'l', long := "library".toList, argument := true },
      { option := .target, short := some 't', long := "target".toList, argument := true },
      { option := .background, short := some 'b', long := "background".toList },
      { option := .rate, short := some 'r', long := "rate".toList, argument := true },
      { option := .port, short := some 'p', long := "port".toList, argument := true },
      { option := .debug, short := some 'd', long := "debug".toList },
      { option := .verbose, short := some 'v', long := "verbose".toList }],
    [{ option := .help, short := some '?', long := "help".toList },
      { option := .version, long := "version".toList }]]

/-- `Pathname.new(x).realpath.to_s` -/
def realpath (t : Tree) (x : Str) : Except Raised Str :=
  match t.realpath x with
  | .ok loc => .ok (Loc.text loc)
  | .error e => .error (.fault (.errno e))

/-- The block of an option; `none` when it returns from `parse`. -/
def handle (t : Tree) (p : Parsing) (found : OptionParser.Found Opt) :
    Except Raised (Option Parsing) :=
  let x := found.value.getD []
  match found.option with
  | .library =>
      (realpath t x).map fun dir => some { p with results := { p.results with library := dir } }
  | .target =>
      (realpath t x).map fun dir => some { p with results := { p.results with target := dir } }
  | .background => .ok (some { p with results := { p.results with background := true } })
  | .rate =>
      .ok (some { p with results := { p.results with background := true, rate := some x } })
  | .port => .ok (some { p with results := { p.results with port := some x } })
  | .help | .version => .ok none
  | .debug => .ok (some { p with level := .DEBUG })
  | .verbose => .ok (some { p with level := .INFO })

def handleAll (t : Tree) : List (OptionParser.Found Opt) → Parsing → Except Raised (Option Parsing)
  | [], p => .ok (some p)
  | found :: rest, p =>
      match handle t p found with
      | .ok (some p') => handleAll t rest p'
      | stopped => stopped

/-- `parse`, in the tree `t` whose working directory is that of the process. -/
def parse (t : Tree) (level : Level) (args : List Str) : Except Raised (Option Parsing) :=
  let r := OptionParser.read switches args
  match handleAll t r.1 { results := {}, level := level } with
  | .ok (some p) =>
      match r.2 with
      | some error => .error (.parse error)
      | none => .ok (some p)
  | stopped => stopped

/-! ## `run` -/

def shouldDaemonize (level : Level) : Bool :=
  level != .DEBUG

/-- The working directory after `daemonize`. -/
def daemonDir : Loc := ["tmp".toList]

/-- The foreground mode. -/
def foreground (cwd : Loc) (results : Results) : List Encoding :=
  [{ cwd := cwd, library := results.library, target := results.target }]

/-- The registry of the background mode, once the state was loaded. -/
def addTo {κ : Type} (engines : Registry κ) (results : Results) (transcoder : κ) : Registry κ :=
  (EngineManager.addEngine engines results.library results.target transcoder).2

/-- The first `rounds` rounds of the background mode: `poll_directory_and_encode` takes the paths of a
pass from the key of its engine. -/
def background {κ : Type} (cwd : Loc) (p : Parsing) (engines : Registry κ) (transcoder : κ)
    (rounds : Nat) : List Encoding :=
  let dir := if shouldDaemonize p.level then daemonDir else cwd
  (List.replicate rounds (addTo engines p.results transcoder).entries).flatten.map fun entry =>
    { cwd := dir, library := entry.1.1, target := entry.1.2 }

/-- The calls of `do_encode` in a run; `none` when it returns -1. -/
def run {κ : Type} (t : Tree) (level : Level) (args : List Str) (engines : Registry κ)
    (transcoder : κ) (rounds : Nat) : Except Raised (Option (List Encoding)) :=
  match parse t level args with
  | .error (.parse .MissingArgument) | .error (.parse .InvalidOption) => .ok none
  | .error raised => .error raised
  | .ok none => .ok none
  | .ok (some p) =>
      if p.results.background then .ok (some (background t.cwd p engines transcoder rounds))
      else .ok (some (foreground t.cwd p.results))

end Main

end Yikes
