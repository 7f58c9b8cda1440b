import Yikes.Lib.State
import Yikes.Ruby.Heap
import Mathlib.Logic.Function.Basic

/-!
# Finished — the finished list as an object that threads share

`Lib/State.lean` has the finished list as a value.  Here it is what it is in the program: an array of
item objects, that `add_to_finished_list` changes in place or replaces, and that `get_finished_items`
copies for the threads of the web service.

The thread that records an item sets its flag and its time before it takes the lock, each of them a
step of its own; which thread is next is up to the schedule.
-/

namespace Yikes

open Ruby

/-- How far the call of `encode_succeeded!` or `encode_failed!` on an item is. -/
inductive Phase
  | waiting
  | flagged
  | stamped
  | recorded
  deriving DecidableEq, Repr

/-- The objects of a `State`; an item is known by a number. -/
structure Objects where
  items : Nat → EncodingItem
  heap : Heap Nat
  /-- the array that `@encoded_queue` refers to -/
  encodedQueue : Nat
  clock : Time
  phase : Nat → Phase
  /-- the items whose locked section has been run, in that order; the program does not have this -/
  recorded : List Nat

namespace Objects

/-- `State.new` with an empty list, and item objects none of which is recorded yet. -/
def new (items : Nat → EncodingItem) : Objects where
  items := items
  heap := { arrays := [[]] }
  encodedQueue := 0
  clock := 0
  phase := fun _ => .waiting
  recorded := []

/-- The finished list. -/
def finished (objects : Objects) : List Nat :=
  objects.heap.array objects.encodedQueue

/-- The items of an array as they are now. -/
def values (objects : Objects) (array : List Nat) : List EncodingItem :=
  array.map objects.items

def enter (objects : Objects) (x : Nat) (phase : Phase) : Objects :=
  { objects with phase := Function.update objects.phase x phase }

/-- `item.succeeded = true` or `false` -/
def setSucceeded (objects : Objects) (x : Nat) (succeeded : Bool) : Objects :=
  { objects with
    items := Function.update objects.items x { objects.items x with succeeded := succeeded } }

/-- `item.finished_at = Time.now` -/
def setFinishedAt (objects : Objects) (x : Nat) : Objects :=
  { objects with
    items := Function.update objects.items x
      { objects.items x with finishedAt := some objects.clock }
    clock := objects.clock + 1 }

/-- The locked section of `add_to_finished_list`. -/
def addToFinishedList (objects : Objects) (x : Nat) : Objects :=
  let heap := objects.heap.push objects.encodedQueue x
  if (heap.array objects.encodedQueue).length ≤ ItemsInFinishedList then
    { objects with heap := heap }
  else
    let r := heap.alloc (last ItemsInFinishedList (heap.array objects.encodedQueue))
    { objects with heap := r.2, encodedQueue := r.1 }

/-- What is noted beside the objects when the locked section on `x` has been run. -/
def note (objects : Objects) (x : Nat) : Objects :=
  { objects with recorded := objects.recorded ++ [x] }

/-- The next step of the call that records an item; `succeeded` says which call it is. -/
def record (succeeded : Nat → Bool) (objects : Objects) (x : Nat) : Objects :=
  match objects.phase x with
  | .waiting => (objects.setSucceeded x (succeeded x)).enter x .flagged
  | .flagged => (objects.setFinishedAt x).enter x .stamped
  | .stamped => ((objects.addToFinishedList x).note x).enter x .recorded
  | .recorded => objects

/-- `get_finished_items`, with the array it returns. -/
def getFinishedItems (objects : Objects) : Nat × Objects :=
  let r := objects.heap.alloc objects.finished
  (r.1, { objects with heap := r.2 })

/-- Who is next. -/
inductive Next
  | record (x : Nat)
  | getFinishedItems
  deriving DecidableEq, Repr

def step (succeeded : Nat → Bool) (objects : Objects) : Next → Objects
  | .record x => objects.record succeeded x
  | .getFinishedItems => objects.getFinishedItems.2

def run (succeeded : Nat → Bool) (schedule : List Next) (objects : Objects) : Objects :=
  schedule.foldl (step succeeded) objects

end Objects

end Yikes
