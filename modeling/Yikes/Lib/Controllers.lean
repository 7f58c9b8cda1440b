import Yikes.Lib.Manager
import Yikes.Ruby.Builder
import Yikes.Ruby.Realpath
import Yikes.Ruby.Uri

/-!
# Controllers — what the web server hands out (`lib/controllers.rb`)

A request is taken to a controller by the first segment of its path; the other segments are the
arguments of `index`.  The URLs of an item are made apart from that, in `sourceUrl` and
`screenshotUrl`.  The podcast is a document of its own (`PodcastController`).
-/

namespace Yikes

open Ruby

/-! ## Items -/

/-- The items `MainController#index` collects. -/
def MainController.index {κ : Type} (engines : Registry κ) : List EncodingItem :=
  (EngineManager.activeEngines engines).flatMap fun e => e.state.getFinishedItems

/-! ## Files -/

inductive StaticFileController
  | files
  | preview
  deriving DecidableEq, Repr

def StaticFileController.getMimeType : StaticFileController → Str
  | .files => "video/mp4".toList
  | .preview => "image/jpeg".toList

/-- `Pathname.new`, which takes no null character. -/
def pathname (path : Str) : Except Fault Str :=
  if '\x00' ∈ path then .error (.raised "string contains null byte".toList) else .ok path

namespace StaticFileControllerBase

/-- What `send_file` is called with, if it is: a path and a type.  `target` is the value of
`get_file_path`. -/
def doSendFile (t : Tree) (controller : StaticFileController) (target subpath : Str) :
    Except Fault (Option (Str × Str)) := do
  let p ← pathname (File.join [target, subpath])
  match t.realpath p with
  -- an exception of `realpath` is rescued, one of `pathname` is not
  | .error _ => return none
  | .ok loc =>
      if Str.index (Loc.text loc) target = some 0 then return some (p, controller.getMimeType)
      else return none

def index (t : Tree) (controller : StaticFileController) (target : Str) (paths : List Str) :
    Except Fault (Option (Str × Str)) :=
  doSendFile t controller target (File.join paths)

end StaticFileControllerBase

namespace StaticFileController

/-- `Yikes` has engines, each with its state, and no state of its own. -/
def noState : Fault :=
  .raised "undefined method: state".toList

def getFilePath (platform : Platform) : StaticFileController → EStateM Fault Tree Str
  | .files => throw noState
  | .preview => fun settings =>
      match platform.screenshotDir settings with
      | .ok (dir, t) => .ok dir t
      | .error (e, t) => .error (.errno e) t

/-- The path that `do_send_file` builds for the arguments of `index`. -/
def path (platform : Platform) (controller : StaticFileController) (paths : List Str) :
    EStateM Fault Tree Str := do
  let target ← controller.getFilePath platform
  return File.join [target, File.join paths]

/-- `map '/files'`, `map '/preview'` -/
def map : List Str → Option (StaticFileController × List Str)
  | [] => none
  | name :: paths =>
      if name = "files".toList then some (.files, paths)
      else if name = "preview".toList then some (.preview, paths)
      else none

/-- The controller a URL reaches, with the arguments of its `index`. -/
def request (url : Str) : Option (StaticFileController × List Str) :=
  map (Uri.segments (Uri.requestPath url))

end StaticFileController

/-! ## URLs of items -/

/-- `Yikes.url_base` -/
def urlBase (port : Nat) : Str :=
  "http://localhost:".toList ++ Nat.toDigits 10 port

namespace EncodingItem

def sourceUrl (port : Nat) (item : EncodingItem) : Str :=
  Uri.escape (urlBase port ++ "/files/".toList ++ item.subpathTarget)

def screenshotUrl (port : Nat) (md5 : Str → Str) (item : EncodingItem) : Str :=
  Uri.escape (urlBase port ++ "/preview/".toList ++ item.screenshotSubpath md5)

end EncodingItem

/-! ## Podcast -/

namespace PodcastController

/-- `Pathname#basename`; the root is its own name. -/
def basename (path : Str) : Str :=
  if path ≠ [] ∧ File.chompSep path = [] then ['/'] else File.basename path

/-- What the block of `xml.item` emits; `next` leaves the block, not the element. -/
def itemBlock (port : Nat) (timeText : Time → Str) (x : EncodingItem) : List Xml :=
  if !x.succeeded then []
  else
    [.tag "title".toList x.subpath,
      .tag "itunes:subtitle".toList x.sourcePath,
      .element "enclosure".toList
        [("url".toList, x.sourceUrl port), ("length".toList, "100000".toList),
          ("type".toList, "video/mp4".toList)] [],
      .tag "guid".toList (x.sourceUrl port),
      .tag "pubDate".toList ((x.finishedAt.map timeText).getD []),
      .tag "itunes:duration".toList "3:00".toList]

/-- The document for the state `app`; `timeText` is `Time#to_s`. -/
def feed (port : Nat) (timeText : Time → Str) (app : State) : Xml :=
  .element "rss".toList
    [("xmlns:itunes".toList, "http://www.itunes.com/dtds/podcast-1.0.dtd".toList),
      ("xmlns:media".toList, "http://search.yahoo.com/mrss/".toList),
      ("version".toList, "2.0".toList)]
    [.block "channel".toList
      ([.tag "title".toList ("Yikes video feed of ".toList ++ basename app.library),
          .tag "link".toList (urlBase port),
          .tag "language".toList "en-us".toList,
          .tag "copyright".toList "Copyright 2008 Paul Betts".toList,
          .tag "itunes:summary".toList ("Converted videos, from ".toList ++ app.library),
          .tag "description".toList ("Converted videos, from ".toList ++ app.library),
          .tag "itunes:image".toList (urlBase port ++ "/FILLMEIN.png".toList),
          .tag "itunes:category".toList "Videos".toList] ++
        app.getFinishedItems.map fun x => .block "item".toList (itemBlock port timeText x))]

/-- `Yikes` has `active_engines`, and no method `engine`. -/
def noEngine : Fault :=
  .raised "undefined method: engine".toList

/-- `Yikes.instance.engine.state` -/
def app {κ : Type} (_ : Registry κ) : Except Fault State :=
  .error noEngine

def podcastXml {κ : Type} (port : Nat) (timeText : Time → Str) (engines : Registry κ) :
    Except Fault Xml :=
  (app engines).map (feed port timeText)

end PodcastController

end Yikes
