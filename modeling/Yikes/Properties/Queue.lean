import Yikes.Lib.Clients
import Yikes.Ruby.Ledger

/-!
# Queue — the to-encode queue loses and duplicates nothing

Beside the shared queue a `Ledger` is kept of its history.  One call keeps the ledger in step with the
queue (`tracks_step`), so every run does (`tracks_run`), and what holds of every ledger holds of the
items (`queue_conserves`).
-/

namespace Yikes

open Ruby

/-- What a call does to the slots. -/
def Call.book (ledger : Ledger EncodingItem) : Call → Ledger EncodingItem
  | .addToQueue items false => ledger.append items
  | .addToQueue items true => ledger.prepend items
  | .dequeueItems count => ledger.leave count.toNat
  | .itemsCount => ledger

namespace State

theorem toEncodeQueue_addToQueue_prepend (state : State) (items : List EncodingItem) :
    (state.addToQueue items true).toEncodeQueue = items.reverse ++ state.toEncodeQueue := by
  have hfold : ∀ queue : List EncodingItem,
      items.foldl (fun queue x => x :: queue) queue = items.reverse ++ queue := by
    induction items with
    | nil => simp
    | cons x items ih =>
        intro queue
        simp [ih]
  simp [addToQueue, hfold]

/-- A dequeue returns the first items, as many of the count as there are. -/
theorem dequeueItems_take (state : State) (count : Int) :
    state.dequeueItems count =
      (state.toEncodeQueue.take (min (max count 0).toNat state.toEncodeQueue.length),
        { state with
          toEncodeQueue :=
            state.toEncodeQueue.drop (min (max count 0).toNat state.toEncodeQueue.length) }) := by
  have hcount : (max count 0).toNat = count.toNat := by omega
  have htake : state.toEncodeQueue.take (min count.toNat state.toEncodeQueue.length) =
      state.toEncodeQueue.take count.toNat := List.take_eq_take_min.symm
  have hdrop : state.toEncodeQueue.drop (min count.toNat state.toEncodeQueue.length) =
      state.toEncodeQueue.drop count.toNat := by
    rcases Nat.le_total count.toNat state.toEncodeQueue.length with hle | hge
    · rw [Nat.min_eq_left hle]
    · rw [Nat.min_eq_right hge, List.drop_length, List.drop_eq_nil_of_le hge]
  rw [dequeueItems_eq, hcount, htake, hdrop]

end State

namespace Shared

variable {ι : Type}

/-- The ledger of all calls so far. -/
def ledger (shared : Shared ι) : Ledger EncodingItem :=
  shared.history.foldl (fun ledger served => served.call.book ledger) Ledger.empty

/-- The ledger says who is in the queue. -/
structure Tracks (shared : Shared ι) : Prop where
  balanced : shared.ledger.Balanced
  arrivals : shared.ledger.arrivals.map Slot.item = shared.added
  departures : shared.ledger.departures.map Slot.item = shared.returned
  queue : shared.ledger.queue.map Slot.item = shared.state.toEncodeQueue

@[simp] theorem ledger_serveTo (shared : Shared ι) (client : ι) (call : Call) :
    (shared.serveTo client call).ledger = call.book shared.ledger := by
  simp [ledger, serveTo]

theorem tracks_new (library : Str) : (Shared.new library : Shared ι).Tracks where
  balanced := Ledger.Balanced.empty
  arrivals := rfl
  departures := rfl
  queue := rfl

@[simp] theorem added_serveTo (shared : Shared ι) (client : ι) (call : Call) :
    (shared.serveTo client call).added = shared.added ++ call.added := by
  simp [added, serveTo]

@[simp] theorem returned_serveTo (shared : Shared ι) (client : ι) (call : Call) :
    (shared.serveTo client call).returned =
      shared.returned ++ (shared.state.serve call).1.returned := by
  simp [returned, serveTo]

@[simp] theorem state_serveTo (shared : Shared ι) (client : ι) (call : Call) :
    (shared.serveTo client call).state = (shared.state.serve call).2 := rfl

theorem tracks_serveTo {shared : Shared ι} (h : shared.Tracks) (client : ι) (call : Call) :
    (shared.serveTo client call).Tracks := by
  cases call with
  | addToQueue items prepend =>
      cases prepend with
      | false =>
          constructor
          · simpa [Call.book] using h.balanced.append items
          · simp [Call.book, Ledger.append, Call.added, h.arrivals]
          · simp [Call.book, Ledger.append, State.serve, Reply.returned, h.departures]
          · simp [Call.book, Ledger.append, State.serve, State.toEncodeQueue_addToQueue, h.queue]
      | true =>
          constructor
          · simpa [Call.book] using h.balanced.prepend items
          · simp [Call.book, Ledger.prepend, Call.added, h.arrivals]
          · simp [Call.book, Ledger.prepend, State.serve, Reply.returned, h.departures]
          · simp [Call.book, Ledger.prepend, State.serve, State.toEncodeQueue_addToQueue_prepend,
              h.queue, List.map_reverse]
  | dequeueItems count =>
      constructor
      · simpa [Call.book] using h.balanced.leave count.toNat
      · simp [Call.book, Ledger.leave, Call.added, h.arrivals]
      · simp [Call.book, Ledger.leave, State.serve, Reply.returned, State.dequeueItems_eq,
          h.departures, h.queue, List.map_take]
      · simp [Call.book, Ledger.leave, State.serve, State.dequeueItems_eq, h.queue, List.map_drop]
  | itemsCount =>
      constructor
      · simpa [Call.book] using h.balanced
      · simp [Call.book, Call.added, h.arrivals]
      · simp [Call.book, State.serve, Reply.returned, h.departures]
      · simp [Call.book, State.serve, h.queue]

variable [DecidableEq ι] (clients : ι → Client)

theorem step_cases (shared : Shared ι) (client : ι) :
    shared.step clients client = shared ∨
      ∃ call, clients client (shared.repliesTo client) = some call ∧
        shared.step clients client = shared.serveTo client call := by
  cases hnext : clients client (shared.repliesTo client) with
  | none => exact Or.inl (by simp [step, hnext])
  | some call => exact Or.inr ⟨call, rfl, by simp [step, hnext]⟩

theorem tracks_step {shared : Shared ι} (h : shared.Tracks) (client : ι) :
    (shared.step clients client).Tracks := by
  rcases step_cases clients shared client with hsame | ⟨call, -, hstep⟩
  · rw [hsame]
    exact h
  · rw [hstep]
    exact tracks_serveTo h client call

theorem tracks_run (schedule : List ι) {shared : Shared ι} (h : shared.Tracks) :
    (shared.run clients schedule).Tracks := by
  induction schedule generalizing shared with
  | nil => exact h
  | cons client schedule ih => exact ih (tracks_step clients h client)

/-- What is said of the queue at one moment. -/
structure Conserves (shared : Shared ι) : Prop where
  /-- nothing is lost and nothing comes twice -/
  kept : (shared.returned ++ shared.state.toEncodeQueue).Perm shared.added
  /-- a dequeue returns the first items of the queue, in their order -/
  taken : ∀ client count,
    clients client (shared.repliesTo client) = some (.dequeueItems count) →
      shared.step clients client =
        { state := { shared.state with
            toEncodeQueue :=
              shared.state.toEncodeQueue.drop
                (min (max count 0).toNat shared.state.toEncodeQueue.length) }
          history := shared.history ++
            [{ client := client
               call := .dequeueItems count
               reply := .items (shared.state.toEncodeQueue.take
                (min (max count 0).toNat shared.state.toEncodeQueue.length)) }] }
  /-- the slots of the ledger are the items that were added, were returned and are queued -/
  tracks : shared.Tracks
  /-- appended items leave in the order they were added -/
  inOrder : ∀ x y, [x, y].Sublist shared.ledger.arrivals → x.appended = true → y.appended = true →
    y ∈ shared.ledger.departures → [x, y].Sublist shared.ledger.departures

/-- Whatever the clients do, at every moment of every run of theirs the queue has lost and duplicated
nothing, serves its first items, and lets appended items leave in the order they came. -/
theorem queue_conserves (library : Str) (schedule : List ι) :
    Conserves clients ((Shared.new library).run clients schedule) := by
  have htracks := tracks_run clients schedule (tracks_new (ι := ι) library)
  refine ⟨?_, ?_, htracks, ?_⟩
  · -- forget the numbers of the slots
    have hperm := htracks.balanced.perm.map Slot.item
    rwa [List.map_append, htracks.departures, htracks.queue, htracks.arrivals] at hperm
  · intro client count hnext
    simp [step, hnext, serveTo, State.serve, State.dequeueItems_take]
  · intro x y harrived hx hy hleft
    exact htracks.balanced.leave_in_order harrived hx hy hleft

/-- Of two passes that take turns, the one that counts first gets what both have queued. -/
example (x y : EncodingItem) :
    (((Shared.new []).run (fun first : Bool => Client.doEncode (if first then [x] else [y]))
      [true, false, true, true, false, false]).history.map Served.reply) =
        [.added, .added, .count 2, .items [x, y], .count 0, .items []] := rfl

end Shared

end Yikes
