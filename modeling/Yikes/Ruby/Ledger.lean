import Mathlib.Data.List.Perm.Basic
import Mathlib.Data.List.Nodup

/-!
# Ledger — who is in a queue, and in which order

Values that are put into a queue may be equal, so a queue alone does not tell which of them left.  A
`Ledger` is kept beside it: every value gets a `Slot` with a number of its own when it arrives, at the
back of the queue or at its front, and slots leave from the front.

* `Ledger.Balanced` is what holds of every ledger: nothing is lost and nothing comes twice, and the
  slots that came in at the back are in their order of arrival;
* `Balanced.leave_in_order` is the fact about two of these.
-/

namespace Ruby

/-- A value in a queue. -/
structure Slot (α : Type*) where
  number : Nat
  /-- the value came in at the back -/
  appended : Bool
  item : α
  deriving DecidableEq, Repr

/-- The book that is kept beside a queue. -/
structure Ledger (α : Type*) where
  arrivals : List (Slot α)
  departures : List (Slot α)
  queue : List (Slot α)

namespace Ledger

variable {α : Type*}

def empty : Ledger α where
  arrivals := []
  departures := []
  queue := []

/-- The slots for values that arrive. -/
def slots (ledger : Ledger α) (appended : Bool) (items : List α) : List (Slot α) :=
  items.mapIdx fun i x => { number := ledger.arrivals.length + i, appended := appended, item := x }

/-- Values come in at the back. -/
def append (ledger : Ledger α) (items : List α) : Ledger α :=
  { ledger with
    arrivals := ledger.arrivals ++ ledger.slots true items
    queue := ledger.queue ++ ledger.slots true items }

/-- Values come in at the front, one by one. -/
def prepend (ledger : Ledger α) (items : List α) : Ledger α :=
  { ledger with
    arrivals := ledger.arrivals ++ ledger.slots false items
    queue := (ledger.slots false items).reverse ++ ledger.queue }

/-- The first `count` slots leave. -/
def leave (ledger : Ledger α) (count : Nat) : Ledger α :=
  { ledger with
    departures := ledger.departures ++ ledger.queue.take count
    queue := ledger.queue.drop count }

structure Balanced (ledger : Ledger α) : Prop where
  numbered : ledger.arrivals.map Slot.number = List.range ledger.arrivals.length
  perm : (ledger.departures ++ ledger.queue).Perm ledger.arrivals
  ordered : (ledger.departures ++ ledger.queue).filter Slot.appended =
    ledger.arrivals.filter Slot.appended

@[simp] theorem map_item_slots (ledger : Ledger α) (appended : Bool) (items : List α) :
    (ledger.slots appended items).map Slot.item = items := by
  apply List.ext_getElem
  · simp [slots]
  · intro i h h'
    simp [slots]

theorem filter_slots (ledger : Ledger α) (appended : Bool) (items : List α) :
    (ledger.slots appended items).filter Slot.appended =
      if appended then ledger.slots appended items else [] := by
  cases appended with
  | true =>
      simp only [if_true, List.filter_eq_self]
      intro slot hslot
      rcases List.mem_mapIdx.1 hslot with ⟨i, hi, rfl⟩
      rfl
  | false =>
      simp only [Bool.false_eq_true, if_false, List.filter_eq_nil_iff]
      intro slot hslot
      rcases List.mem_mapIdx.1 hslot with ⟨i, hi, rfl⟩
      simp

theorem numbered_append {ledger : Ledger α}
    (h : ledger.arrivals.map Slot.number = List.range ledger.arrivals.length)
    (appended : Bool) (items : List α) :
    (ledger.arrivals ++ ledger.slots appended items).map Slot.number =
      List.range (ledger.arrivals ++ ledger.slots appended items).length := by
  have hnew : (ledger.slots appended items).map Slot.number =
      (List.range items.length).map (ledger.arrivals.length + ·) := by
    apply List.ext_getElem
    · simp [slots]
    · intro i h h'
      simp [slots]
  have hlength : (ledger.slots appended items).length = items.length := by simp [slots]
  rw [List.map_append, h, hnew, List.length_append, hlength, List.range_add]

namespace Balanced

variable {ledger : Ledger α}

theorem empty : (Ledger.empty : Ledger α).Balanced where
  numbered := rfl
  perm := .refl _
  ordered := rfl

theorem append (h : ledger.Balanced) (items : List α) : (ledger.append items).Balanced where
  numbered := numbered_append h.numbered true items
  perm := by
    simp only [Ledger.append]
    rw [← List.append_assoc]
    exact h.perm.append_right _
  ordered := by
    simp only [Ledger.append]
    rw [← List.append_assoc, List.filter_append, h.ordered, ← List.filter_append]

theorem prepend (h : ledger.Balanced) (items : List α) : (ledger.prepend items).Balanced where
  numbered := numbered_append h.numbered false items
  perm := by
    simp only [Ledger.prepend]
    calc
      (ledger.departures ++ ((ledger.slots false items).reverse ++ ledger.queue)).Perm
          (ledger.departures ++ (ledger.queue ++ (ledger.slots false items).reverse)) :=
            List.Perm.append_left _ List.perm_append_comm
      _ = (ledger.departures ++ ledger.queue) ++ (ledger.slots false items).reverse :=
            (List.append_assoc _ _ _).symm
      List.Perm _ (ledger.arrivals ++ ledger.slots false items) :=
            h.perm.append (List.reverse_perm _)
  ordered := by
    have hnone := filter_slots ledger false items
    have hold := h.ordered
    simp only [List.filter_append] at hold
    simp only [Ledger.prepend, List.filter_append, List.filter_reverse, hnone]
    simpa using hold

theorem leave (h : ledger.Balanced) (count : Nat) : (ledger.leave count).Balanced where
  numbered := h.numbered
  perm := by
    simpa only [Ledger.leave, List.append_assoc, List.take_append_drop] using h.perm
  ordered := by
    simpa only [Ledger.leave, List.append_assoc, List.take_append_drop] using h.ordered

theorem nodup (h : ledger.Balanced) : (ledger.departures ++ ledger.queue).Nodup := by
  apply h.perm.nodup_iff.2
  apply List.Nodup.of_map Slot.number
  rw [h.numbered]
  exact List.nodup_range

/-- Of two slots that came in at the back, the later one does not leave before the earlier one. -/
theorem leave_in_order (h : ledger.Balanced) {x y : Slot α} (harrived : [x, y].Sublist ledger.arrivals)
    (hx : x.appended = true) (hy : y.appended = true) (hleft : y ∈ ledger.departures) :
    [x, y].Sublist ledger.departures := by
  have hboth : [x, y].Sublist (ledger.departures ++ ledger.queue) := by
    have hfilter := harrived.filter Slot.appended
    rw [← h.ordered] at hfilter
    have hpair : [x, y].filter Slot.appended = [x, y] := by simp [hx, hy]
    rw [hpair] at hfilter
    exact hfilter.trans List.filter_sublist
  rcases List.sublist_append_iff.1 hboth with ⟨front, back, heq, hfront, hback⟩
  -- `y` has left, so nothing of the pair is in the queue
  cases back with
  | nil => simpa [heq] using hfront
  | cons z back =>
      have hlast : y ∈ z :: back := by
        have hget := congrArg List.getLast? heq
        rw [List.getLast?_append_of_ne_nil _ (by simp)] at hget
        exact List.mem_of_getLast? hget.symm
      have hqueue : y ∈ ledger.queue := hback.subset hlast
      exact absurd hqueue (List.disjoint_of_nodup_append h.nodup hleft)

end Balanced

end Ledger

end Ruby
