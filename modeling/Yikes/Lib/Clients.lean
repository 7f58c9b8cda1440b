import Yikes.Lib.State

/-!
# Clients — several threads at one to-encode queue

The methods of `State` that hold the lock of the queue are the calls a thread can make (`Call`).  What
a thread calls next may depend on the replies it had, as the count that `do_encode` dequeues does, so a
client is a function of these; which client is next is up to the schedule.
-/

namespace Yikes

inductive Call
  | addToQueue (items : List EncodingItem) (prepend : Bool)
  | dequeueItems (count : Int)
  | itemsCount
  deriving DecidableEq, Repr

inductive Reply
  | added
  | items (ret : List EncodingItem)
  | count (n : Nat)
  deriving DecidableEq, Repr

def Call.added : Call → List EncodingItem
  | .addToQueue items _ => items
  | _ => []

def Reply.returned : Reply → List EncodingItem
  | .items ret => ret
  | _ => []

/-- One locked section. -/
def State.serve (state : State) : Call → Reply × State
  | .addToQueue items prepend => (.added, state.addToQueue items prepend)
  | .dequeueItems count =>
      let r := state.dequeueItems count
      (.items r.1, r.2)
  | .itemsCount => (.count state.itemsCount, state)

/-- The next call, from the replies so far; `none` when the client has finished. -/
abbrev Client := List Reply → Option Call

namespace Client

/-- What `do_encode` does with the queue: `enqueue_files_to_encode`, then
`dequeue_items(items_count)`. -/
def doEncode (items : List EncodingItem) : Client
  | [] => some (.addToQueue items false)
  | [_] => some .itemsCount
  | [_, .count n] => some (.dequeueItems n)
  | _ => none

end Client

structure Served (ι : Type) where
  client : ι
  call : Call
  reply : Reply

/-- A state that several clients share, with all that was called so far. -/
structure Shared (ι : Type) where
  state : State
  history : List (Served ι)

namespace Shared

variable {ι : Type}

def new (library : Ruby.Str) : Shared ι where
  state := State.new library
  history := []

def repliesTo [DecidableEq ι] (shared : Shared ι) (client : ι) : List Reply :=
  (shared.history.filter (·.client = client)).map Served.reply

/-- A call of a client is served. -/
def serveTo (shared : Shared ι) (client : ι) (call : Call) : Shared ι :=
  let r := shared.state.serve call
  { state := r.2, history := shared.history ++ [{ client := client, call := call, reply := r.1 }] }

/-- A client makes its next call. -/
def step [DecidableEq ι] (clients : ι → Client) (shared : Shared ι) (client : ι) : Shared ι :=
  match clients client (shared.repliesTo client) with
  | none => shared
  | some call => shared.serveTo client call

def run [DecidableEq ι] (clients : ι → Client) (schedule : List ι) (shared : Shared ι) : Shared ι :=
  schedule.foldl (step clients) shared

/-- All items that were added, in the order they were added. -/
def added (shared : Shared ι) : List EncodingItem :=
  shared.history.flatMap fun served => served.call.added

/-- All items that were returned, in the order they were returned. -/
def returned (shared : Shared ι) : List EncodingItem :=
  shared.history.flatMap fun served => served.reply.returned

end Shared

end Yikes
