import Yikes.Lib.Finished

/-!
# Window — the finished list is the window of the latest results

* `Sound` says what holds of the objects in every run: the list is the last items recorded, and an
  item is as far as its phase says;
* `Handed` says what holds of an array that `get_finished_items` has returned, in every run from then
  on.

`addToFinishedList_refines` connects the objects with the finished list of `Lib/State.lean`.
-/

namespace Yikes
namespace Objects

open Ruby

variable (succeeded : Nat → Bool) (items : Nat → EncodingItem)

/-- The item at each phase of its call. -/
def Fits (objects : Objects) (x : Nat) : Prop :=
  match objects.phase x with
  | .waiting => objects.items x = items x
  | .flagged => objects.items x = { items x with succeeded := succeeded x }
  | .stamped | .recorded => ∃ t < objects.clock,
      objects.items x = { items x with succeeded := succeeded x, finishedAt := some t }

structure Sound (objects : Objects) : Prop where
  made : objects.heap.Made objects.encodedQueue
  window : objects.finished = last ItemsInFinishedList objects.recorded
  nodup : objects.recorded.Nodup
  recorded : ∀ x, x ∈ objects.recorded ↔ objects.phase x = .recorded
  fits : ∀ x, Fits succeeded items objects x

variable {succeeded items} {objects : Objects}

theorem sound_new : Sound succeeded items (Objects.new items) where
  made := by simp [Objects.new, Heap.Made]
  window := by simp [Objects.new, finished, Heap.array, last]
  nodup := List.nodup_nil
  recorded := by simp [Objects.new]
  fits := fun _ => rfl

/-! ## One step -/

/-- The list after the locked section, whichever way the section ends. -/
theorem finished_addToFinishedList (hmade : objects.heap.Made objects.encodedQueue) (x : Nat) :
    (objects.addToFinishedList x).finished =
      last ItemsInFinishedList (objects.finished ++ [x]) := by
  have hpush := Heap.array_push_self hmade x
  unfold addToFinishedList
  dsimp only
  split
  · next hle =>
      rw [hpush] at hle
      exact hpush.trans (last_of_length_le hle).symm
  · rw [hpush]
    exact Heap.array_alloc_self _ _

theorem made_addToFinishedList (hmade : objects.heap.Made objects.encodedQueue) (x : Nat) :
    (objects.addToFinishedList x).heap.Made (objects.addToFinishedList x).encodedQueue := by
  unfold addToFinishedList
  dsimp only
  split
  · exact hmade.push _ x
  · exact Heap.made_alloc_self _ _

@[simp] theorem recorded_addToFinishedList (x : Nat) :
    (objects.addToFinishedList x).recorded = objects.recorded := by
  unfold addToFinishedList
  dsimp only
  split <;> rfl

@[simp] theorem items_addToFinishedList (x : Nat) :
    (objects.addToFinishedList x).items = objects.items := by
  unfold addToFinishedList
  dsimp only
  split <;> rfl

@[simp] theorem clock_addToFinishedList (x : Nat) :
    (objects.addToFinishedList x).clock = objects.clock := by
  unfold addToFinishedList
  dsimp only
  split <;> rfl

@[simp] theorem phase_addToFinishedList (x : Nat) :
    (objects.addToFinishedList x).phase = objects.phase := by
  unfold addToFinishedList
  dsimp only
  split <;> rfl

/-- A step of the call on `x` leaves the other items as they are. -/
theorem Fits.of_same {objects' : Objects} {y : Nat} (h : Fits succeeded items objects y)
    (hphase : objects'.phase y = objects.phase y) (hitem : objects'.items y = objects.items y)
    (hclock : objects.clock ≤ objects'.clock) : Fits succeeded items objects' y := by
  unfold Fits at h ⊢
  rw [hphase]
  cases hcase : objects.phase y with
  | waiting => simpa [hcase, hitem] using h
  | flagged => simpa [hcase, hitem] using h
  | stamped =>
      rw [hcase] at h
      rcases h with ⟨t, ht, hvalue⟩
      exact ⟨t, Nat.lt_of_lt_of_le ht hclock, hitem.trans hvalue⟩
  | recorded =>
      rw [hcase] at h
      rcases h with ⟨t, ht, hvalue⟩
      exact ⟨t, Nat.lt_of_lt_of_le ht hclock, hitem.trans hvalue⟩

/-- A step of the call on `x` is about `x` only. -/
theorem record_frame (objects : Objects) {x y : Nat} (hne : y ≠ x) :
    (objects.record succeeded x).phase y = objects.phase y ∧
      (objects.record succeeded x).items y = objects.items y := by
  unfold record
  cases objects.phase x with
  | waiting => simp [enter, setSucceeded, hne]
  | flagged => simp [enter, setFinishedAt, hne]
  | stamped => simp [enter, note, hne]
  | recorded => exact ⟨rfl, rfl⟩

theorem clock_le_record (objects : Objects) (x : Nat) :
    objects.clock ≤ (objects.record succeeded x).clock := by
  unfold record
  cases objects.phase x with
  | waiting => exact Nat.le_refl _
  | flagged => exact Nat.le_succ _
  | stamped => simp [enter, note]
  | recorded => exact Nat.le_refl _

/-- What a step of the call on `x` makes of the list and of what was recorded. -/
theorem record_list (objects : Objects) (hmade : objects.heap.Made objects.encodedQueue) (x : Nat) :
    ((objects.record succeeded x).recorded = objects.recorded ∧
        (objects.record succeeded x).finished = objects.finished ∧
        ((objects.record succeeded x).phase x = .recorded ↔ objects.phase x = .recorded)) ∨
      (objects.phase x = .stamped ∧ (objects.record succeeded x).phase x = .recorded ∧
        (objects.record succeeded x).recorded = objects.recorded ++ [x] ∧
        (objects.record succeeded x).finished =
          last ItemsInFinishedList (objects.finished ++ [x])) := by
  unfold record
  cases hphase : objects.phase x with
  | waiting => exact Or.inl ⟨rfl, rfl, by simp [enter]⟩
  | flagged => exact Or.inl ⟨rfl, rfl, by simp [enter]⟩
  | stamped =>
      refine Or.inr ⟨rfl, by simp [enter], by simp [enter, note], ?_⟩
      exact finished_addToFinishedList hmade x
  | recorded => exact Or.inl ⟨rfl, rfl, by simp [hphase]⟩

theorem made_record (objects : Objects) (hmade : objects.heap.Made objects.encodedQueue) (x : Nat) :
    (objects.record succeeded x).heap.Made (objects.record succeeded x).encodedQueue := by
  unfold record
  cases objects.phase x with
  | waiting => exact hmade
  | flagged => exact hmade
  | stamped => exact made_addToFinishedList hmade x
  | recorded => exact hmade

/-- The call on `x` goes on where its phase says. -/
theorem fits_record {x : Nat} (h : Fits succeeded items objects x) :
    Fits succeeded items (objects.record succeeded x) x := by
  unfold Fits at h
  unfold record
  cases hphase : objects.phase x with
  | waiting =>
      rw [hphase] at h
      simp [Fits, enter, setSucceeded, h]
  | flagged =>
      rw [hphase] at h
      simp only [Fits, enter, setFinishedAt, Function.update_self, h]
      exact ⟨objects.clock, Nat.lt_succ_self _, rfl⟩
  | stamped =>
      rw [hphase] at h
      simpa [Fits, enter, note] using h
  | recorded => simpa [Fits, hphase] using h

theorem sound_record (h : Sound succeeded items objects) (x : Nat) :
    Sound succeeded items (objects.record succeeded x) := by
  have hfits : ∀ y, Fits succeeded items (objects.record succeeded x) y := by
    intro y
    by_cases hne : y = x
    · rw [hne]
      exact fits_record (h.fits x)
    · rcases record_frame objects hne with ⟨hphase, hitem⟩
      exact (h.fits y).of_same hphase hitem (clock_le_record objects x)
  rcases record_list objects h.made x with ⟨hrec, hfin, hphase⟩ | ⟨hstamped, hphase, hrec, hfin⟩
  · refine ⟨made_record objects h.made x, ?_, ?_, ?_, hfits⟩
    · rw [hfin, hrec, h.window]
    · rw [hrec]
      exact h.nodup
    · intro y
      by_cases hne : y = x
      · rw [hne, hrec, hphase, h.recorded]
      · rw [hrec, (record_frame objects hne).1, h.recorded]
  · have hnew : x ∉ objects.recorded := by simp [h.recorded, hstamped]
    refine ⟨made_record objects h.made x, ?_, ?_, ?_, hfits⟩
    · -- what was cut off before is not in the window now
      rw [hfin, hrec, h.window, last_last_append]
    · rw [hrec]
      exact List.nodup_append.2 ⟨h.nodup, by simp, by grind⟩
    · intro y
      by_cases hne : y = x
      · simp [hne, hrec, hphase]
      · simp [hne, hrec, (record_frame objects hne).1, h.recorded]

theorem sound_step (h : Sound succeeded items objects) (next : Next) :
    Sound succeeded items (objects.step succeeded next) := by
  cases next with
  | record x => exact sound_record h x
  | getFinishedItems =>
      constructor
      · exact h.made.alloc _
      · exact (Heap.array_alloc h.made _).trans h.window
      · exact h.nodup
      · exact h.recorded
      · exact h.fits

theorem sound_run (schedule : List Next) (h : Sound succeeded items objects) :
    Sound succeeded items (objects.run succeeded schedule) := by
  induction schedule generalizing objects with
  | nil => exact h
  | cons next schedule ih => exact ih (sound_step h next)

/-! ## How far a call is -/

/-- The phase after a number of steps. -/
def phaseAfter : Nat → Phase
  | 0 => .waiting
  | 1 => .flagged
  | 2 => .stamped
  | _ + 3 => .recorded

theorem phaseAfter_eq_recorded {n : Nat} : phaseAfter n = .recorded ↔ 3 ≤ n := by
  match n with
  | 0 => simp [phaseAfter]
  | 1 => simp [phaseAfter]
  | 2 => simp [phaseAfter]
  | n + 3 => simp [phaseAfter]

theorem phase_record {x n : Nat} (h : objects.phase x = phaseAfter n) :
    (objects.record succeeded x).phase x = phaseAfter (n + 1) := by
  unfold record
  match n with
  | 0 => simp [h, phaseAfter, enter]
  | 1 => simp [h, phaseAfter, enter]
  | 2 => simp [h, phaseAfter, enter]
  | n + 3 => simp [h, phaseAfter]

/-- The phase of an item counts the turns that its call was given. -/
theorem phase_run (schedule : List Next) {x n : Nat} (h : objects.phase x = phaseAfter n) :
    (objects.run succeeded schedule).phase x = phaseAfter (n + schedule.count (.record x)) := by
  induction schedule generalizing objects n with
  | nil => exact h
  | cons next schedule ih =>
      cases next with
      | getFinishedItems =>
          have hcount : (Next.getFinishedItems :: schedule).count (.record x) =
              schedule.count (.record x) := List.count_cons_of_ne (by simp)
          rw [hcount]
          exact ih h
      | record y =>
          by_cases hxy : x = y
          · rw [hxy, List.count_cons_self, Nat.add_comm _ 1, ← Nat.add_assoc]
            rw [hxy] at h ih
            exact ih (phase_record h)
          · have hcount : (Next.record y :: schedule).count (.record x) =
                schedule.count (.record x) := List.count_cons_of_ne (by simp [Ne.symm hxy])
            rw [hcount]
            exact ih ((record_frame objects hxy).1.trans h)

/-! ## Arrays that were returned -/

/-- An array that was returned with the given items in it, as they were then. -/
structure Handed (a : Nat) (array : List Nat) (values : List EncodingItem) (objects : Objects) :
    Prop where
  made : objects.heap.Made a
  apart : a ≠ objects.encodedQueue
  contents : objects.heap.array a = array
  recorded : ∀ x ∈ array, objects.phase x = .recorded
  values : objects.values array = values

variable {a : Nat} {array : List Nat} {values : List EncodingItem}

theorem handed_getFinishedItems (h : Sound succeeded items objects) :
    Handed objects.getFinishedItems.1 objects.finished (objects.values objects.finished)
      objects.getFinishedItems.2 where
  made := Heap.made_alloc_self _ _
  apart := h.made.ne_new.symm
  contents := Heap.array_alloc_self _ _
  recorded := by
    intro x hx
    rw [h.window] at hx
    exact (h.recorded x).1 (List.mem_of_mem_drop hx)
  values := rfl

/-- The locked section changes the list it finds, or makes a new one. -/
theorem array_addToFinishedList (hmade : objects.heap.Made a) (hne : a ≠ objects.encodedQueue)
    (x : Nat) :
    (objects.addToFinishedList x).heap.Made a ∧ a ≠ (objects.addToFinishedList x).encodedQueue ∧
      (objects.addToFinishedList x).heap.array a = objects.heap.array a := by
  have hpush := hmade.push objects.encodedQueue x
  have hsame := @Heap.array_push_ne Nat objects.heap _ _ hne x
  unfold addToFinishedList
  dsimp only
  split
  · exact ⟨hpush, hne, hsame⟩
  · exact ⟨hpush.alloc _, hpush.ne_new, (Heap.array_alloc hpush _).trans hsame⟩

theorem handed_record (h : Handed a array values objects) (x : Nat) :
    Handed a array values (objects.record succeeded x) := by
  have harray : (objects.record succeeded x).heap.Made a ∧
      a ≠ (objects.record succeeded x).encodedQueue ∧
      (objects.record succeeded x).heap.array a = objects.heap.array a := by
    unfold record
    cases objects.phase x with
    | waiting => exact ⟨h.made, h.apart, rfl⟩
    | flagged => exact ⟨h.made, h.apart, rfl⟩
    | stamped => exact array_addToFinishedList h.made h.apart x
    | recorded => exact ⟨h.made, h.apart, rfl⟩
  -- the call on an item that was recorded has ended, so a step is about another one
  have hsame : ∀ y ∈ array, (objects.record succeeded x).phase y = objects.phase y ∧
      (objects.record succeeded x).items y = objects.items y := by
    intro y hy
    by_cases hne : y = x
    · have hphase := h.recorded y hy
      rw [hne] at hphase
      simp [record, hphase]
    · exact record_frame objects hne
  refine ⟨harray.1, harray.2.1, harray.2.2.trans h.contents, ?_, ?_⟩
  · intro y hy
    rw [(hsame y hy).1]
    exact h.recorded y hy
  · rw [← h.values]
    exact List.map_congr_left fun y hy => (hsame y hy).2

theorem handed_step (h : Handed a array values objects) (next : Next) :
    Handed a array values (objects.step succeeded next) := by
  cases next with
  | record x => exact handed_record h x
  | getFinishedItems =>
      exact ⟨h.made.alloc _, h.apart, (Heap.array_alloc h.made _).trans h.contents, h.recorded,
        h.values⟩

theorem handed_run (schedule : List Next) (h : Handed a array values objects) :
    Handed a array values (objects.run succeeded schedule) := by
  induction schedule generalizing objects with
  | nil => exact h
  | cons next schedule ih => exact ih (handed_step h next)

/-! ## Whole runs -/

/-- At every moment of every run the items recorded are those whose call was given its three turns, each
of them once; the finished list is the last `ItemsInFinishedList` of them, all flagged by their own
call and stamped; and an array that is returned at that moment is the list of that moment ever after,
down to the items in it. -/
theorem finished_window (succeeded : Nat → Bool) (items : Nat → EncodingItem)
    (schedule later : List Next) :
    let objects := (Objects.new items).run succeeded schedule
    let after := objects.getFinishedItems.2.run succeeded later
    (∀ x, x ∈ objects.recorded ↔ objects.phase x = .recorded) ∧
      (∀ x, objects.phase x = .recorded ↔ 3 ≤ schedule.count (.record x)) ∧
      objects.recorded.Nodup ∧
      objects.finished = objects.recorded.drop
        (objects.recorded.length - min objects.recorded.length ItemsInFinishedList) ∧
      (∀ x ∈ objects.finished,
        (objects.items x).succeeded = succeeded x ∧ (objects.items x).finishedAt.isSome) ∧
      after.heap.array objects.getFinishedItems.1 = objects.finished ∧
      after.values objects.finished = objects.values objects.finished := by
  intro objects after
  have hsound : Sound succeeded items objects := sound_run schedule sound_new
  have hhanded := @handed_run succeeded _ _ _ _ later (handed_getFinishedItems hsound)
  refine ⟨hsound.recorded, ?_, hsound.nodup, ?_, ?_, hhanded.contents, hhanded.values⟩
  · intro x
    have hphase : objects.phase x = phaseAfter (0 + schedule.count (.record x)) :=
      phase_run schedule rfl
    rw [hphase, Nat.zero_add, phaseAfter_eq_recorded]
  · have hdrop : objects.recorded.length - min objects.recorded.length ItemsInFinishedList =
        objects.recorded.length - ItemsInFinishedList := by omega
    rw [hsound.window, hdrop, last]
  · intro x hx
    rw [hsound.window] at hx
    have hphase := (hsound.recorded x).1 (List.mem_of_mem_drop hx)
    have hfits := hsound.fits x
    unfold Fits at hfits
    rw [hphase] at hfits
    rcases hfits with ⟨t, -, hvalue⟩
    simp [hvalue]

/-- Seen as values, the locked section is what `State` does to its finished list. -/
theorem addToFinishedList_refines (h : Sound succeeded items objects) {x : Nat} {t : Time}
    (hstamped : (objects.items x).finishedAt = some t) {state : State}
    (hstate : state.encodedQueue = objects.values objects.finished) :
    (state.addToFinishedList (objects.items x) t).encodedQueue =
      (objects.addToFinishedList x).values (objects.addToFinishedList x).finished := by
  have hitem : { objects.items x with finishedAt := some t } = objects.items x := by
    rw [← hstamped]
  have hlast : (state.addToFinishedList (objects.items x) t).encodedQueue =
      last ItemsInFinishedList (state.encodedQueue ++ [objects.items x]) := by
    unfold State.addToFinishedList
    dsimp only
    rw [hitem]
    split
    · next hle => exact (last_of_length_le hle).symm
    · rfl
  rw [hlast, hstate, finished_addToFinishedList h.made]
  simp [Objects.values, last, List.map_drop]

end Objects
end Yikes
