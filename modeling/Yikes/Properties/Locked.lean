import Yikes.Lib.Locked
import Yikes.Properties.Queue
import Yikes.Properties.Window

/-!
# Locked — the mutexes make the methods of a `State` one step

`Lib/Clients.lean` and `Lib/Finished.lean` take every locked section for one step.  Here this is a
result: run alone, a section does what the step does (`run_lockedSection`), and under its mutex it may
as well run alone (`Monitor.refines`).

* `queue_calls_atomic` and `finished_calls_atomic` are the results for the two lists;
* `State.mutexes_live` says that no thread waits for ever.
-/

namespace Yikes

open Ruby

/-! ## The to-encode queue -/

namespace Call

theorem run_addEach (prepend : Bool) (items queue : List EncodingItem) :
    (addEach prepend items).run queue =
      (.added, items.foldl (fun queue x => if prepend then x :: queue else queue ++ [x]) queue) := by
  induction items generalizing queue with
  | nil => rfl
  | cons x items ih => rw [addEach, Section.run_access, ih, List.foldl_cons]

theorem run_shiftTimes (count : Nat) (ret queue : List EncodingItem) :
    (shiftTimes count ret).run queue =
      (.items (State.shiftItems count ret queue).1, (State.shiftItems count ret queue).2) := by
  induction count generalizing ret queue with
  | zero => rfl
  | succ count ih =>
      cases queue with
      | nil => rfl
      | cons x queue =>
          have hshift : (shiftTimes (count + 1) ret).run (x :: queue) =
              (shiftTimes count (ret ++ [x])).run queue := rfl
          rw [hshift, ih, State.shiftItems]

/-- Run alone, the locked section of a call is the step that serves it. -/
theorem run_lockedSection (call : Call) (state : State) :
    call.lockedSection.run state.toEncodeQueue =
      ((state.serve call).1, (state.serve call).2.toEncodeQueue) := by
  cases call with
  | addToQueue items prepend =>
      rw [lockedSection, run_addEach]
      rfl
  | dequeueItems count =>
      rw [lockedSection, run_shiftTimes]
      rfl
  | itemsCount => rfl

/-- How often a call reads or writes the queue, at most. -/
def accesses : Call → Nat
  | .addToQueue items _ => items.length
  | .dequeueItems count => 2 * count.toNat
  | .itemsCount => 1

theorem length_addEach (prepend : Bool) (items queue : List EncodingItem) :
    (addEach prepend items).length queue = items.length := by
  induction items generalizing queue with
  | nil => rfl
  | cons x items ih => rw [addEach, Section.length, ih, List.length_cons]

theorem length_shiftTimes (count : Nat) (ret queue : List EncodingItem) :
    (shiftTimes count ret).length queue ≤ 2 * count := by
  induction count generalizing ret queue with
  | zero => exact Nat.le_refl _
  | succ count ih =>
      cases queue with
      | nil =>
          have hone : (shiftTimes (count + 1) ret).length [] = 1 := rfl
          omega
      | cons x queue =>
          have hshift : (shiftTimes (count + 1) ret).length (x :: queue) =
              (shiftTimes count (ret ++ [x])).length queue + 1 + 1 := rfl
          have hrest := ih (ret ++ [x]) queue
          omega

theorem length_lockedSection (call : Call) (queue : List EncodingItem) :
    call.lockedSection.length queue ≤ call.accesses := by
  cases call with
  | addToQueue items prepend => exact Nat.le_of_eq (length_addEach prepend items queue)
  | dequeueItems count => exact length_shiftTimes count.toNat [] queue
  | itemsCount => exact Nat.le_refl _

end Call

namespace Shared

variable {ι : Type}

/-- A call that has returned, as `Shared` has it. -/
def servedOf (returned : Returned ι Call Reply) : Served ι where
  client := returned.thread
  call := returned.call
  reply := returned.reply

/-- The same queue and the same history. -/
structure Matches (shared : Shared ι) (s : Serial ι Call (List EncodingItem) Reply) : Prop where
  queue : shared.state.toEncodeQueue = s.object
  history : shared.history = s.history.map servedOf

variable [DecidableEq ι] (clients : ι → Client)

theorem Matches.repliesTo {shared : Shared ι} {s : Serial ι Call (List EncodingItem) Reply}
    (h : shared.Matches s) (client : ι) :
    shared.repliesTo client = Returned.repliesTo s.history client := by
  rw [Shared.repliesTo, h.history, List.filter_map, List.map_map]
  rfl

theorem Matches.step {shared : Shared ι} {s : Serial ι Call (List EncodingItem) Reply}
    (h : shared.Matches s) (client : ι) :
    (shared.step clients client).Matches (s.step clients Call.lockedSection client) := by
  have hreplies := h.repliesTo client
  unfold Shared.step Serial.step
  rw [← hreplies]
  cases hnext : clients client (shared.repliesTo client) with
  | none => exact h
  | some call =>
      have hrun := call.run_lockedSection shared.state
      rw [h.queue] at hrun
      simp only [hrun]
      exact ⟨rfl, by simp [serveTo, h.history, servedOf]⟩

theorem Matches.run {shared : Shared ι} {s : Serial ι Call (List EncodingItem) Reply}
    (h : shared.Matches s) (calls : List ι) :
    (shared.run clients calls).Matches (s.run clients Call.lockedSection calls) := by
  induction calls generalizing shared s with
  | nil => exact h
  | cons client calls ih => exact ih (h.step clients client)

/-- The queue under its mutex, with all that has returned. -/
abbrev Queue (ι : Type) := Monitor ι Call (List EncodingItem) Reply

/-- The queue once the threads took the steps of the schedule. -/
def Queue.after (clients : ι → Client) (schedule : List ι) : Queue ι :=
  (Monitor.new []).run clients Call.lockedSection schedule

/-- Whatever the threads do between any two accesses, whenever the mutex is free the queue and all
replies are those of a run in which each call is one step, taken while it is under way.  So nothing is
lost and nothing comes twice. -/
theorem queue_calls_atomic (library : Str) (schedule : List ι) :
    ∃ calls : List ι, calls.Sublist schedule ∧
      (∃ underWay : List (Served ι), underWay.length ≤ 1 ∧
        ((Shared.new library).run clients calls).history =
          (Queue.after clients schedule).history.map servedOf ++ underWay) ∧
      ((Queue.after clients schedule).owner = none →
        (Queue.after clients schedule).history.map servedOf =
          ((Shared.new library).run clients calls).history ∧
        (Queue.after clients schedule).object =
          ((Shared.new library).run clients calls).state.toEncodeQueue ∧
        ((Queue.after clients schedule).history.flatMap (fun r => r.reply.returned) ++
          (Queue.after clients schedule).object).Perm
            ((Queue.after clients schedule).history.flatMap fun r => r.call.added)) := by
  unfold Queue.after
  rcases Monitor.refines clients Call.lockedSection ([] : List EncodingItem) schedule with
    ⟨calls, hsub, -, hfree, underWay, hhistory, hlength⟩
  have hnew : (Shared.new library : Shared ι).Matches { object := [], history := [] } := ⟨rfl, rfl⟩
  have hmatches := hnew.run clients calls
  refine ⟨calls, hsub, ⟨underWay.map servedOf, by simpa using hlength, ?_⟩, ?_⟩
  · rw [hmatches.history, hhistory, List.map_append]
  · intro hnone
    rcases hfree hnone with ⟨hobject, hsame⟩
    have hbook := tracks_run clients calls (tracks_new (ι := ι) library)
    have hperm := hbook.balanced.perm.map Slot.item
    rw [List.map_append, hbook.departures, hbook.queue, hbook.arrivals] at hperm
    refine ⟨by rw [hmatches.history, hsame], hobject.trans hmatches.queue.symm, ?_⟩
    rw [hmatches.queue, returned, added, hmatches.history, List.flatMap_map, List.flatMap_map] at hperm
    rw [hobject, hsame]
    exact hperm

end Shared

/-! ## The finished list -/

namespace FinishedList

/-- The objects of a `State` with this finished list. -/
def objects (list : FinishedList) : Objects :=
  { Objects.new (fun _ => .new [] [] []) with heap := list.heap, encodedQueue := list.encodedQueue }

def ofObjects (objects : Objects) : FinishedList where
  heap := objects.heap
  encodedQueue := objects.encodedQueue

/-- Run alone, the section that records an item is the step of `Objects`. -/
theorem run_addToFinishedList (list : FinishedList) (x : Nat) :
    (FinishedCall.addToFinishedList x).lockedSection.run list =
      (.added, ofObjects (list.objects.addToFinishedList x)) := by
  have hlength : ∀ list' : FinishedList,
      list' = list.push x → (list'.contents.length ≤ ItemsInFinishedList ↔
        ((list.objects.heap.push list.objects.encodedQueue x).array
          list.objects.encodedQueue).length ≤ ItemsInFinishedList) := by
    rintro list' rfl
    rfl
  rw [FinishedCall.lockedSection, Section.run_access, Section.run_access, id]
  by_cases hle : (list.push x).contents.length ≤ ItemsInFinishedList
  · have hle' := (hlength _ rfl).1 hle
    rw [if_pos hle, Section.run_reply, Objects.addToFinishedList, if_pos hle']
    rfl
  · have hle' := fun h => hle ((hlength _ rfl).2 h)
    rw [if_neg hle, Objects.addToFinishedList, if_neg hle']
    rfl

theorem run_getFinishedItems (list : FinishedList) :
    FinishedCall.getFinishedItems.lockedSection.run list =
      (.items list.objects.getFinishedItems.1, ofObjects list.objects.getFinishedItems.2) := rfl

end FinishedList

namespace FinishedCall

def recorded : FinishedCall → List Nat
  | .addToFinishedList x => [x]
  | .getFinishedItems => []

/-- How often a call reads or writes the list, at most. -/
def accesses : FinishedCall → Nat
  | .addToFinishedList _ => 4
  | .getFinishedItems => 1

theorem length_lockedSection (call : FinishedCall) (list : FinishedList) :
    call.lockedSection.length list ≤ call.accesses := by
  cases call with
  | addToFinishedList x =>
      rw [lockedSection, Section.length, Section.length, id]
      by_cases hle : (list.push x).contents.length ≤ ItemsInFinishedList
      · have hshort : 2 ≤ 4 := by decide
        rw [if_pos hle]
        exact hshort
      · rw [if_neg hle]
        exact Nat.le_refl _
  | getFinishedItems => exact Nat.le_refl _

end FinishedCall

namespace FinishedList

variable {ι : Type}

/-- The items that were recorded, in the order they were. -/
def recordedBy (history : List (Returned ι FinishedCall FinishedReply)) : List Nat :=
  history.flatMap fun r => r.call.recorded

/-- The list is the window of what was recorded, and so was every array when it was returned. -/
structure Windows (s : Serial ι FinishedCall FinishedList FinishedReply) : Prop where
  made : s.object.heap.Made s.object.encodedQueue
  window : s.object.contents = last ItemsInFinishedList (recordedBy s.history)
  handed : ∀ front r back a, s.history = front ++ r :: back → r.reply = .items a →
    s.object.heap.Made a ∧ a ≠ s.object.encodedQueue ∧
      s.object.heap.array a = last ItemsInFinishedList (recordedBy front)

theorem windows_new : Windows ({ object := new, history := [] } :
    Serial ι FinishedCall FinishedList FinishedReply) where
  made := by simp [new, Heap.Made]
  window := rfl
  handed := by simp

/-- One more call: what it returns itself, and what was returned before. -/
theorem handed_concat {history front back : List (Returned ι FinishedCall FinishedReply)}
    {new r : Returned ι FinishedCall FinishedReply} (h : history ++ [new] = front ++ r :: back) :
    (r = new ∧ front = history) ∨ ∃ back', history = front ++ r :: back' := by
  cases back using List.reverseRecOn with
  | nil =>
      have hsame := List.append_inj' h rfl
      exact Or.inl ⟨(List.singleton_inj.1 hsame.2).symm, hsame.1.symm⟩
  | append_singleton back last =>
      have hcut : history ++ [new] = (front ++ r :: back) ++ [last] := by simpa using h
      exact Or.inr ⟨back, (List.append_inj' hcut rfl).1⟩

theorem windows_call {s : Serial ι FinishedCall FinishedList FinishedReply} (h : Windows s) (i : ι)
    (call : FinishedCall) :
    Windows { object := (call.lockedSection.run s.object).2,
              history := s.history ++ [⟨i, call, (call.lockedSection.run s.object).1⟩] } := by
  cases call with
  | addToFinishedList x =>
      rw [run_addToFinishedList]
      refine ⟨@Objects.made_addToFinishedList s.object.objects h.made x, ?_, ?_⟩
      · have hlist : (ofObjects (s.object.objects.addToFinishedList x)).contents =
            last ItemsInFinishedList (s.object.contents ++ [x]) :=
          @Objects.finished_addToFinishedList s.object.objects h.made x
        have hrecorded : recordedBy (s.history ++ [⟨i, .addToFinishedList x, .added⟩]) =
            recordedBy s.history ++ [x] := by simp [recordedBy, FinishedCall.recorded]
        rw [hlist, h.window, last_last_append, hrecorded]
      · intro front r back a hhistory hreply
        rcases handed_concat hhistory with ⟨rfl, -⟩ | ⟨back', hold⟩
        · -- a call that records returns no array
          simp at hreply
        · rcases h.handed front r back' a hold hreply with ⟨hmade, hne, hwindow⟩
          rcases @Objects.array_addToFinishedList s.object.objects a hmade hne x with
            ⟨hmade', hne', hsame⟩
          exact ⟨hmade', hne', hsame.trans hwindow⟩
  | getFinishedItems =>
      rw [run_getFinishedItems]
      refine ⟨h.made.alloc _, ?_, ?_⟩
      · have hlist : (ofObjects s.object.objects.getFinishedItems.2).contents = s.object.contents :=
          Heap.array_alloc h.made _
        have hrecorded : recordedBy (s.history ++
            [⟨i, .getFinishedItems, .items s.object.objects.getFinishedItems.1⟩]) =
              recordedBy s.history := by simp [recordedBy, FinishedCall.recorded]
        rw [hlist, h.window, hrecorded]
      · intro front r back a hhistory hreply
        rcases handed_concat hhistory with ⟨rfl, rfl⟩ | ⟨back', hold⟩
        · -- the array is the one that is copied now, or an older one
          have ha : s.object.objects.getFinishedItems.1 = a := by simpa using hreply
          subst ha
          exact ⟨Heap.made_alloc_self _ _, h.made.ne_new.symm,
            (Heap.array_alloc_self _ _).trans h.window⟩
        · rcases h.handed front r back' a hold hreply with ⟨hmade, hne, hwindow⟩
          exact ⟨hmade.alloc _, hne, (Heap.array_alloc hmade _).trans hwindow⟩

/-- Every array that was returned has the items that were recorded before. -/
def Returns (history : List (Returned ι FinishedCall FinishedReply)) (list : FinishedList) : Prop :=
  ∀ front r back a, history = front ++ r :: back → r.reply = .items a →
    list.heap.array a = last ItemsInFinishedList (recordedBy front)

/-- No access of a section touches an array that was returned. -/
theorem always_returns {s : Serial ι FinishedCall FinishedList FinishedReply} (h : Windows s)
    (call : FinishedCall) : call.lockedSection.Always (Returns s.history) s.object := by
  have hnow : Returns s.history s.object := fun front r back a hsplit hreply =>
    (h.handed front r back a hsplit hreply).2.2
  cases call with
  | addToFinishedList x =>
      have hpush : Returns s.history (s.object.push x) := by
        intro front r back a hsplit hreply
        rcases h.handed front r back a hsplit hreply with ⟨-, hne, hwindow⟩
        exact (Heap.array_push_ne hne x).trans hwindow
      refine ⟨hnow, hpush, ?_⟩
      dsimp only [id]
      by_cases hle : (s.object.push x).contents.length ≤ ItemsInFinishedList
      · rw [if_pos hle]
        exact hpush
      · rw [if_neg hle]
        have hmake : Returns s.history ((s.object.push x).make
            (last ItemsInFinishedList (s.object.push x).contents)) := by
          intro front r back a hsplit hreply
          have hmade := (h.handed front r back a hsplit hreply).1.push s.object.encodedQueue x
          exact (Heap.array_alloc hmade _).trans (hpush front r back a hsplit hreply)
        -- the assignment writes to no array
        exact ⟨hpush, hmake, hmake⟩
  | getFinishedItems =>
      refine ⟨hnow, ?_⟩
      intro front r back a hsplit hreply
      have hmade := (h.handed front r back a hsplit hreply).1
      exact (Heap.array_alloc hmade _).trans (hnow front r back a hsplit hreply)

/-- The finished list under its mutex, with all that has returned. -/
abbrev Guarded (ι : Type) := Monitor ι FinishedCall FinishedList FinishedReply

variable [DecidableEq ι] (threads : Threads ι FinishedCall FinishedReply)

/-- The list once the threads took the steps of the schedule. -/
def Guarded.after (schedule : List ι) : Guarded ι :=
  (Monitor.new new).run threads FinishedCall.lockedSection schedule

/-- Whatever the threads do between any two accesses, every array that was returned is at every moment
the window of the items recorded before it, so no thread sees the list while it is too long; and
whenever the mutex is free the list is the window of all that were recorded. -/
theorem finished_calls_atomic (schedule : List ι) :
    (∀ front r back a, (Guarded.after threads schedule).history = front ++ r :: back →
      r.reply = .items a →
      (Guarded.after threads schedule).object.heap.array a =
        last ItemsInFinishedList (recordedBy front)) ∧
      ((Guarded.after threads schedule).owner = none →
        (Guarded.after threads schedule).object.contents =
          last ItemsInFinishedList (recordedBy (Guarded.after threads schedule).history)) := by
  unfold Guarded.after
  have hcall := fun (s : Serial ι FinishedCall FinishedList FinishedReply) i call hs =>
    windows_call (s := s) hs i call
  have hreturns : ∀ s : Serial ι FinishedCall FinishedList FinishedReply, Windows s →
      Returns s.history s.object := fun s hs front r back a hsplit hreply =>
    (hs.handed front r back a hsplit hreply).2.2
  have hkept := fun s i hs =>
    Serial.step_invariant threads FinishedCall.lockedSection hcall (s := s) hs i
  refine ⟨?_, ?_⟩
  · exact Monitor.always hreturns (fun s call hs => always_returns hs call) hkept windows_new schedule
  · intro hnone
    rcases Monitor.refines threads FinishedCall.lockedSection new schedule with
      ⟨calls, -, -, hfree, -⟩
    rcases hfree hnone with ⟨hobject, hhistory⟩
    have hwindows := Serial.run_invariant threads FinishedCall.lockedSection hcall calls windows_new
    rw [hobject, hhistory]
    exact hwindows.window

end FinishedList

/-! ## Nobody waits for ever -/

/-- Neither mutex is ever held for good: whatever the threads call and whoever is next, a thread that
is not at an end can go on, and a section ends within the accesses of its call. -/
theorem State.mutexes_live {ι : Type} [DecidableEq ι] (clients : ι → Client)
    (threads : Threads ι FinishedCall FinishedReply) (schedule : List ι) :
    Monitor.Live clients Call.lockedSection Call.accesses (Shared.Queue.after clients schedule) ∧
      Monitor.Live threads FinishedCall.lockedSection FinishedCall.accesses
        (FinishedList.Guarded.after threads schedule) :=
  ⟨Monitor.live clients Call.length_lockedSection [] schedule,
    Monitor.live threads FinishedCall.length_lockedSection .new schedule⟩

end Yikes
