import Mathlib.Data.List.Basic

/-!
# Heap — arrays as objects

In Ruby an array is an object that is held by reference: what `<<` adds is seen by everyone who holds
it.  A `Heap` has the arrays that were made so far, and an array is known by its place in it.

* `push` is `Array#<<` and changes one array in place;
* `alloc` is what `Array.new` and `Array#last` do: they make a new array and change no other one.
-/

namespace Ruby

/-- The arrays made so far, each with what is in it. -/
structure Heap (α : Type*) where
  arrays : List (List α)
  deriving Repr

namespace Heap

variable {α : Type*}

/-- What is in an array. -/
def array (heap : Heap α) (a : Nat) : List α :=
  heap.arrays.getD a []

def alloc (heap : Heap α) (contents : List α) : Nat × Heap α :=
  (heap.arrays.length, { arrays := heap.arrays ++ [contents] })

def push (heap : Heap α) (a : Nat) (x : α) : Heap α :=
  { arrays := heap.arrays.set a (heap.array a ++ [x]) }

/-- An array that was made. -/
def Made (heap : Heap α) (a : Nat) : Prop :=
  a < heap.arrays.length

variable {heap : Heap α} {a b : Nat}

theorem made_alloc_self (heap : Heap α) (contents : List α) :
    (heap.alloc contents).2.Made (heap.alloc contents).1 := by
  simp [alloc, Made]

theorem Made.alloc (h : heap.Made a) (contents : List α) : (heap.alloc contents).2.Made a := by
  simp only [Heap.alloc, Made, List.length_append] at h ⊢
  omega

theorem Made.push (h : heap.Made a) (b : Nat) (x : α) : (heap.push b x).Made a := by
  simpa [Heap.push, Made] using h

/-- A new array is none of those that were there. -/
theorem Made.ne_new (h : heap.Made a) : a ≠ heap.arrays.length :=
  Nat.ne_of_lt h

@[simp] theorem array_alloc_self (heap : Heap α) (contents : List α) :
    (heap.alloc contents).2.array (heap.alloc contents).1 = contents := by
  simp [alloc, array]

theorem array_alloc (h : heap.Made a) (contents : List α) :
    (heap.alloc contents).2.array a = heap.array a := by
  have hlt : a < heap.arrays.length := h
  simp [alloc, array, List.getElem?_append_left hlt]

theorem array_push_self (h : heap.Made a) (x : α) : (heap.push a x).array a = heap.array a ++ [x] := by
  have hlt : a < heap.arrays.length := h
  simp [push, array, hlt]

theorem array_push_ne (hne : a ≠ b) (x : α) : (heap.push b x).array a = heap.array a := by
  simp [push, array, List.getElem?_set_ne hne.symm]

end Heap

/-- `Array#last(n)` -/
def last {α : Type*} (n : Nat) (contents : List α) : List α :=
  contents.drop (contents.length - n)

theorem last_of_length_le {α : Type*} {n : Nat} {contents : List α} (h : contents.length ≤ n) :
    last n contents = contents := by
  simp [last, Nat.sub_eq_zero_of_le h]

/-- The last `n` behind one more value need only the last `n` in front of it. -/
theorem last_last_append {α : Type*} (n : Nat) (contents : List α) (x : α) :
    last n (last n contents ++ [x]) = last n (contents ++ [x]) := by
  simp only [last, List.length_append, List.length_drop, List.length_singleton]
  rcases Nat.le_total contents.length n with hle | hge
  · simp [Nat.sub_eq_zero_of_le hle]
  · have hrest : contents.length - (contents.length - n) + 1 - n = 1 := by omega
    have hall : contents.length + 1 - n = (contents.length - n) + 1 := by omega
    calc
      (contents.drop (contents.length - n) ++ [x]).drop
            (contents.length - (contents.length - n) + 1 - n)
          = ((contents ++ [x]).drop (contents.length - n)).drop 1 := by
            rw [hrest, List.drop_append_of_le_length (Nat.sub_le _ _)]
      _ = (contents ++ [x]).drop (contents.length + 1 - n) := by rw [List.drop_drop, hall]

theorem last_append_last {α : Type*} (n : Nat) (contents more : List α) :
    last n (last n contents ++ more) = last n (contents ++ more) := by
  induction more generalizing contents with
  | nil =>
      simp only [last, List.append_nil, List.length_drop, List.drop_drop]
      congr 1
      omega
  | cons x more ih =>
      calc
        last n (last n contents ++ x :: more)
            = last n (last n (last n contents ++ [x]) ++ more) := by
              rw [ih, List.append_assoc, List.singleton_append]
        _ = last n (contents ++ [x] ++ more) := by rw [last_last_append, ih]
        _ = last n (contents ++ x :: more) := by rw [List.append_assoc, List.singleton_append]

theorem map_last {α β : Type*} (f : α → β) (n : Nat) (contents : List α) :
    (last n contents).map f = last n (contents.map f) := by
  simp [last, List.map_drop]

end Ruby
