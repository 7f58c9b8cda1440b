import Yikes.Ruby.Path
import Yikes.Ruby.Regex

/-!
# State — the items of an engine and its two queues (`lib/state.rb`)

* `EncodingItem` is one video to convert, with the paths that are computed from its subpath;
* `State` is the queue of items to encode and the list of finished ones.

Every method of `State` that holds a lock is one step here.
-/

namespace Yikes

open Ruby

/-- `Time.now`, in ticks. -/
abbrev Time := Nat

def ItemsInFinishedList : Nat := 30

structure EncodingItem where
  library : Str
  subpath : Str
  target : Str
  succeeded : Bool := false
  finishedAt : Option Time := none
  deriving DecidableEq, Repr

namespace EncodingItem

/-! ## Paths of an item -/

/-- `/\.[^\.\/\\]*$/` -/
def extension : Regex :=
  .seq (.one (· == '.')) (.seq (.many fun c => c != '.' && c != '/' && c != '\\') .lineEnd)

def mp4 : Str := "mp4".toList

def extractSubpath (sourceRoot file : Str) : Str :=
  if Str.index file sourceRoot = some 0 ∧ sourceRoot ≠ [] then
    Str.sub file (File.join [sourceRoot, []]) []
  else file

def subpathAsTargetExt (subpath : Str) (targetExt : Str := mp4) : Str :=
  Regex.gsub extension (fun _ => '.' :: targetExt) subpath

def buildTargetPath (targetRoot subpath : Str) (targetExt : Str := mp4) : Str :=
  File.join [targetRoot, subpathAsTargetExt subpath targetExt]

/-- `EncodingItem.new` -/
def new (library sourcePath target : Str) : EncodingItem where
  library := library
  subpath := extractSubpath library sourcePath
  target := target

def sourcePath (item : EncodingItem) : Str :=
  File.join [item.library, item.subpath]

def targetPath (item : EncodingItem) : Str :=
  buildTargetPath item.target item.subpath

def subpathTarget (item : EncodingItem) : Str :=
  subpathAsTargetExt item.subpath

/-- `screenshot_subpath`, for the digest `md5`. -/
def screenshotSubpath (md5 : Str → Str) (item : EncodingItem) : Str :=
  md5 item.subpath ++ ".jpg".toList

end EncodingItem

/-! ## Queues -/

structure State where
  encodedQueue : List EncodingItem
  toEncodeQueue : List EncodingItem
  library : Str
  target : Option Str
  deriving DecidableEq, Repr

namespace State

def new (library : Str) : State where
  encodedQueue := []
  toEncodeQueue := []
  library := library
  target := none

/-- Items that are prepended one by one end up in reverse order. -/
def addToQueue (state : State) (items : List EncodingItem) (prepend : Bool := false) : State :=
  { state with
    toEncodeQueue :=
      items.foldl (fun queue x => if prepend then x :: queue else queue ++ [x])
        state.toEncodeQueue }

/-- The loop of `dequeue_items`; `ret` has the items shifted so far. -/
def shiftItems : Nat → List EncodingItem → List EncodingItem →
    List EncodingItem × List EncodingItem
  | 0, ret, queue => (ret, queue)
  | _ + 1, ret, [] => (ret, [])
  | count + 1, ret, x :: queue => shiftItems count (ret ++ [x]) queue

/-- `count.times` does nothing for a negative count. -/
def dequeueItems (state : State) (count : Int := 1) : List EncodingItem × State :=
  let shifted := shiftItems count.toNat [] state.toEncodeQueue
  (shifted.1, { state with toEncodeQueue := shifted.2 })

def itemsCount (state : State) : Nat :=
  state.toEncodeQueue.length

def addToFinishedList (state : State) (item : EncodingItem) (now : Time) : State :=
  let queue := state.encodedQueue ++ [{ item with finishedAt := some now }]
  { state with
    encodedQueue :=
      if queue.length ≤ ItemsInFinishedList then queue
      else queue.drop (queue.length - ItemsInFinishedList) }

def encodeSucceeded (state : State) (item : EncodingItem) (now : Time) : State :=
  state.addToFinishedList { item with succeeded := true } now

def encodeFailed (state : State) (item : EncodingItem) (now : Time) : State :=
  state.addToFinishedList { item with succeeded := false } now

def getFinishedItems (state : State) : List EncodingItem :=
  state.encodedQueue

theorem toEncodeQueue_addToQueue (state : State) (items : List EncodingItem) :
    (state.addToQueue items).toEncodeQueue = state.toEncodeQueue ++ items := by
  have hfold : ∀ queue : List EncodingItem,
      items.foldl (fun queue x => queue ++ [x]) queue = queue ++ items := by
    induction items with
    | nil => simp
    | cons x items ih =>
        intro queue
        simp [ih]
  simpa [addToQueue] using hfold state.toEncodeQueue

theorem shiftItems_eq (count : Nat) :
    ∀ ret queue : List EncodingItem,
      shiftItems count ret queue = (ret ++ queue.take count, queue.drop count) := by
  induction count with
  | zero =>
      intro ret queue
      simp [shiftItems]
  | succ count ih =>
      intro ret queue
      cases queue with
      | nil => simp [shiftItems]
      | cons x queue => simp [shiftItems, ih]

/-- A negative count takes nothing, one that is too large takes everything. -/
theorem dequeueItems_eq (state : State) (count : Int) :
    state.dequeueItems count =
      (state.toEncodeQueue.take count.toNat,
        { state with toEncodeQueue := state.toEncodeQueue.drop count.toNat }) := by
  simp [dequeueItems, shiftItems_eq]

theorem dequeueItems_itemsCount (state : State) :
    state.dequeueItems state.itemsCount =
      (state.toEncodeQueue, { state with toEncodeQueue := [] }) := by
  simp [dequeueItems_eq, itemsCount]

/-- Recording an item adds nothing else to the finished list. -/
theorem mem_addToFinishedList {state : State} {item x : EncodingItem} {now : Time}
    (h : x ∈ (state.addToFinishedList item now).encodedQueue) :
    x ∈ state.encodedQueue ∨ x = { item with finishedAt := some now } := by
  -- the truncation only takes items away
  have hmem : x ∈ state.encodedQueue ++ [{ item with finishedAt := some now }] := by
    unfold addToFinishedList at h
    dsimp only at h
    split at h
    · exact h
    · exact List.mem_of_mem_drop h
  simpa using hmem

@[simp] theorem toEncodeQueue_encodeSucceeded (state : State) (item : EncodingItem) (now : Time) :
    (state.encodeSucceeded item now).toEncodeQueue = state.toEncodeQueue := rfl

@[simp] theorem toEncodeQueue_encodeFailed (state : State) (item : EncodingItem) (now : Time) :
    (state.encodeFailed item now).toEncodeQueue = state.toEncodeQueue := rfl

end State

end Yikes
