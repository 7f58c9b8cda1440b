import Yikes.Lib.Clients
import Yikes.Lib.Finished
import Yikes.Ruby.Mutex

/-!
# Locked — the locked sections of a `State`, access by access (`lib/state.rb`)

`Lib/Clients.lean` and `Lib/Finished.lean` take a locked section for one step.  Here the sections are
what the source has between `synchronize` and the end of its block: single reads and writes of
`@to_encode_queue` under one mutex, and of `@encoded_queue` and the arrays it refers to under the other.
-/

namespace Yikes

open Ruby

/-! ## `@to_encode_queue_lock` -/

namespace Call

/-- `items.each {|x| (prepend ? @to_encode_queue.unshift(x) : @to_encode_queue << x) }` -/
def addEach (prepend : Bool) : List EncodingItem → Section (List EncodingItem) Reply
  | [] => .reply .added
  | x :: items =>
      .access (fun queue => if prepend then x :: queue else queue ++ [x]) fun _ =>
        addEach prepend items

/-- `count.times do`, with the items shifted so far. -/
def shiftTimes : Nat → List EncodingItem → Section (List EncodingItem) Reply
  | 0, ret => .reply (.items ret)
  | count + 1, ret =>
      .access id fun queue =>
        if queue.isEmpty then .reply (.items ret)
        else .access List.tail fun queue => shiftTimes count (ret ++ queue.head?.toList)

def lockedSection : Call → Section (List EncodingItem) Reply
  | .addToQueue items prepend => addEach prepend items
  | .dequeueItems count => shiftTimes count.toNat []
  | .itemsCount => .access id fun queue => .reply (.count queue.length)

end Call

/-! ## `@encoded_queue_lock` -/

/-- The arrays, and the one that `@encoded_queue` refers to. -/
structure FinishedList where
  heap : Heap Nat
  encodedQueue : Nat

inductive FinishedCall
  | addToFinishedList (x : Nat)
  | getFinishedItems
  deriving DecidableEq, Repr

/-- `get_finished_items` returns an array. -/
inductive FinishedReply
  | added
  | items (array : Nat)
  deriving DecidableEq, Repr

namespace FinishedList

/-- `@encoded_queue = []` -/
def new : FinishedList where
  heap := { arrays := [[]] }
  encodedQueue := 0

def contents (list : FinishedList) : List Nat :=
  list.heap.array list.encodedQueue

/-- `@encoded_queue << item` -/
def push (x : Nat) (list : FinishedList) : FinishedList :=
  { list with heap := list.heap.push list.encodedQueue x }

/-- A new array. -/
def make (contents : List Nat) (list : FinishedList) : FinishedList :=
  { list with heap := (list.heap.alloc contents).2 }

/-- The array that is made next. -/
def next (list : FinishedList) : Nat :=
  (list.heap.alloc []).1

end FinishedList

namespace FinishedCall

def lockedSection : FinishedCall → Section FinishedList FinishedReply
  | .addToFinishedList x =>
      .access (FinishedList.push x) fun _ =>
        .access id fun list =>
          -- `break` leaves the section, and gives the mutex back
          if list.contents.length ≤ ItemsInFinishedList then .reply .added
          else
            .access (fun list => list.make (last ItemsInFinishedList list.contents)) fun list =>
              .access (fun now => { now with encodedQueue := list.next }) fun _ => .reply .added
  | .getFinishedItems =>
      .access (fun list => list.make list.contents) fun list => .reply (.items list.next)

end FinishedCall

end Yikes
