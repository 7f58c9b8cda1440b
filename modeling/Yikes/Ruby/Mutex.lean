import Mathlib.Data.List.Basic
import Mathlib.Logic.Function.Basic

/-!
# Mutex — an object that threads use under a lock

`Mutex#synchronize` runs a block while no other thread is in a block of the same mutex.  What the
block does to the object it protects is a `Section`: one access after the other, and between any two
of them other threads may go on.

* `Monitor` is the object with its mutex and the places its threads are at; a step is one access, or
  the mutex taken or given back;
* `Serial` is the same object when every call is one step;
* `Monitor.refines` says that the first behaves like the second, each call taking effect when its
  thread gets the mutex;
* `Monitor.always` goes from what holds all through every call to what holds at every moment;
* `Monitor.live` says that nobody waits for ever.
-/

namespace Ruby

universe u v w x

/-- What a thread does under the lock: it changes the object and goes on from what it saw. -/
inductive Section (σ : Type u) (ρ : Type v)
  | reply (r : ρ)
  | access (f : σ → σ) (k : σ → Section σ ρ)

namespace Section

variable {σ : Type u} {ρ : Type v}

/-- The reply and the object when nobody comes between. -/
def run : Section σ ρ → σ → ρ × σ
  | reply r, s => (r, s)
  | access f k, s => (k s).run (f s)

/-- How many accesses it makes when nobody comes between. -/
def length : Section σ ρ → σ → Nat
  | reply _, _ => 0
  | access f k, s => (k s).length (f s) + 1

/-- `P` holds of the object at every moment when nobody comes between. -/
def Always (P : σ → Prop) : Section σ ρ → σ → Prop
  | reply _, s => P s
  | access f k, s => P s ∧ (k s).Always P (f s)

theorem Always.now {P : σ → Prop} {section' : Section σ ρ} {s : σ} (h : section'.Always P s) :
    P s := by
  cases section' with
  | reply r => exact h
  | access f k => exact h.1

@[simp] theorem run_reply (r : ρ) (s : σ) : (reply r : Section σ ρ).run s = (r, s) := rfl

@[simp] theorem run_access (f : σ → σ) (k : σ → Section σ ρ) (s : σ) :
    (access f k).run s = (k s).run (f s) := rfl

end Section

/-- A call that has returned. -/
structure Returned (ι : Type u) (κ : Type v) (ρ : Type w) where
  thread : ι
  call : κ
  reply : ρ
  deriving DecidableEq, Repr

namespace Returned

variable {ι : Type u} {κ : Type v} {ρ : Type w} [DecidableEq ι]

/-- The replies a thread has had. -/
def repliesTo (history : List (Returned ι κ ρ)) (i : ι) : List ρ :=
  (history.filter (·.thread = i)).map Returned.reply

theorem repliesTo_append_ne {i j : ι} (hne : j ≠ i) (history : List (Returned ι κ ρ)) (call : κ)
    (r : ρ) : repliesTo (history ++ [⟨i, call, r⟩]) j = repliesTo history j := by
  have hnot : ¬ i = j := fun h => hne h.symm
  simp [repliesTo, hnot]

end Returned

/-- The next call of a thread, from the replies it had; `none` when the thread has finished. -/
abbrev Threads (ι : Type u) (κ : Type v) (ρ : Type w) := ι → List ρ → Option κ

/-! ## Calls in one step -/

structure Serial (ι : Type u) (κ : Type v) (σ : Type w) (ρ : Type x) where
  object : σ
  history : List (Returned ι κ ρ)

namespace Serial

variable {ι : Type u} {κ : Type v} {σ : Type w} {ρ : Type x} [DecidableEq ι]
  (threads : Threads ι κ ρ) (body : κ → Section σ ρ)

/-- A thread makes its next call. -/
def step (s : Serial ι κ σ ρ) (i : ι) : Serial ι κ σ ρ :=
  match threads i (Returned.repliesTo s.history i) with
  | none => s
  | some call =>
      let r := (body call).run s.object
      { object := r.2, history := s.history ++ [⟨i, call, r.1⟩] }

def run (schedule : List ι) (s : Serial ι κ σ ρ) : Serial ι κ σ ρ :=
  schedule.foldl (step threads body) s

section

variable {P : Serial ι κ σ ρ → Prop}
  (hcall : ∀ (s : Serial ι κ σ ρ) (i : ι) (call : κ), P s →
    P { object := ((body call).run s.object).2,
        history := s.history ++ [⟨i, call, ((body call).run s.object).1⟩] })

include hcall

theorem step_invariant {s : Serial ι κ σ ρ} (hs : P s) (i : ι) : P (s.step threads body i) := by
  unfold step
  split
  · exact hs
  · exact hcall s i _ hs

/-- What every call keeps holds after every run. -/
theorem run_invariant (schedule : List ι) {s : Serial ι κ σ ρ} (hs : P s) :
    P (s.run threads body schedule) := by
  induction schedule generalizing s with
  | nil => exact hs
  | cons i schedule ih => exact ih (step_invariant threads body hcall hs i)

end

end Serial

/-! ## Calls under the lock -/

/-- Where a thread is. -/
inductive Place (κ : Type u) (σ : Type v) (ρ : Type w)
  | idle
  | waiting (call : κ)
  | inside (call : κ) (rest : Section σ ρ)

structure Monitor (ι : Type u) (κ : Type v) (σ : Type w) (ρ : Type x) where
  object : σ
  /-- who holds the mutex -/
  owner : Option ι
  place : ι → Place κ σ ρ
  history : List (Returned ι κ ρ)

namespace Monitor

variable {ι : Type u} {κ : Type v} {σ : Type w} {ρ : Type x}

/-- Nobody has called yet. -/
def new (object : σ) : Monitor ι κ σ ρ where
  object := object
  owner := none
  place := fun _ => .idle
  history := []

variable [DecidableEq ι] (threads : Threads ι κ ρ) (body : κ → Section σ ρ)

def move (m : Monitor ι κ σ ρ) (i : ι) (place : Place κ σ ρ) : Monitor ι κ σ ρ :=
  { m with place := Function.update m.place i place }

/-- A thread goes on; one that waits for a mutex that is held stays where it is. -/
def step (m : Monitor ι κ σ ρ) (i : ι) : Monitor ι κ σ ρ :=
  match m.place i with
  | .idle =>
      match threads i (Returned.repliesTo m.history i) with
      | none => m
      | some call => m.move i (.waiting call)
  | .waiting call =>
      match m.owner with
      | some _ => m
      | none => { m.move i (.inside call (body call)) with owner := some i }
  | .inside call (.access f k) =>
      { m.move i (.inside call (k m.object)) with object := f m.object }
  | .inside call (.reply r) =>
      { m.move i .idle with owner := none, history := m.history ++ [⟨i, call, r⟩] }

def run (schedule : List ι) (m : Monitor ι κ σ ρ) : Monitor ι κ σ ρ :=
  schedule.foldl (step threads body) m

/-- The thread has returned from its last call. -/
def Finished (m : Monitor ι κ σ ρ) (i : ι) : Prop :=
  m.place i = .idle ∧ threads i (Returned.repliesTo m.history i) = none

/-- The thread waits for a mutex that is held. -/
def Blocked (m : Monitor ι κ σ ρ) (i : ι) : Prop :=
  (∃ call, m.place i = .waiting call) ∧ m.owner ≠ none

/-- While a thread has something to do, some thread can go on; and a thread in its section gives the
mutex back within `bound` accesses, whoever else takes steps meanwhile. -/
structure Live (bound : κ → Nat) (m : Monitor ι κ σ ρ) : Prop where
  able : (∃ i, ¬ Finished threads m i) → ∃ i, ¬ Finished threads m i ∧ ¬ Blocked m i
  givenBack : ∀ i call rest, m.place i = .inside call rest →
    ∀ later : List ι, bound call < later.count i →
      ∃ front back, later = front ++ back ∧ (m.run threads body front).owner = none

variable {threads body}

/-- The call under way counts as served already. -/
structure Follows (threads : Threads ι κ ρ) (m : Monitor ι κ σ ρ) (s : Serial ι κ σ ρ) : Prop where
  inside : ∀ i call rest, m.place i = .inside call rest →
    m.owner = some i ∧ s.object = (rest.run m.object).2 ∧
      s.history = m.history ++ [⟨i, call, (rest.run m.object).1⟩]
  held : ∀ i, m.owner = some i → ∃ call rest, m.place i = .inside call rest
  free : m.owner = none → s.object = m.object ∧ s.history = m.history
  waiting : ∀ i call, m.place i = .waiting call →
    threads i (Returned.repliesTo m.history i) = some call

variable (threads) in
theorem follows_new (object : σ) :
    Follows threads (new object : Monitor ι κ σ ρ) { object := object, history := [] } where
  inside := by simp [new]
  held := by simp [new]
  free := fun _ => ⟨rfl, rfl⟩
  waiting := by simp [new]

/-! ## The lock makes calls one step -/

section

variable {m : Monitor ι κ σ ρ} {s : Serial ι κ σ ρ} {i j : ι}

@[simp] theorem place_move_self (m : Monitor ι κ σ ρ) (i : ι) (place : Place κ σ ρ) :
    (m.move i place).place i = place := by
  simp [move]

theorem place_move_ne (hne : j ≠ i) (m : Monitor ι κ σ ρ) (place : Place κ σ ρ) :
    (m.move i place).place j = m.place j := by
  simp [move, hne]

/-- A thread in its section holds the mutex, so it is the only one. -/
theorem Follows.alone (h : Follows threads m s) {call : κ} {rest : Section σ ρ}
    (hi : m.place i = .inside call rest) {call' : κ} {rest' : Section σ ρ}
    (hj : m.place j = .inside call' rest') : j = i := by
  have hown := (h.inside i call rest hi).1
  rw [(h.inside j call' rest' hj).1] at hown
  exact Option.some.inj hown

/-- A thread that is not in its section calls, and starts to wait. -/
theorem Follows.call (h : Follows threads m s) (hidle : m.place i = .idle) {call : κ}
    (hcall : threads i (Returned.repliesTo m.history i) = some call) :
    Follows threads (m.move i (.waiting call)) s where
  inside := by
    intro j call' rest hj
    by_cases hne : j = i
    · simp [hne] at hj
    · rw [place_move_ne hne] at hj
      exact h.inside j call' rest hj
  held := by
    intro j hj
    rcases h.held j hj with ⟨call', rest, hplace⟩
    have hne : j ≠ i := by
      rintro rfl
      simp [hidle] at hplace
    exact ⟨call', rest, by rw [place_move_ne hne, hplace]⟩
  free := h.free
  waiting := by
    intro j call' hj
    by_cases hne : j = i
    · subst hne
      have hsame : call = call' := by simpa using hj
      exact hsame ▸ hcall
    · rw [place_move_ne hne] at hj
      exact h.waiting j call' hj

/-- A thread gets the mutex: in the serial run this is its call. -/
theorem Follows.acquire (h : Follows threads m s) {call : κ} (hplace : m.place i = .waiting call)
    (hfree : m.owner = none) :
    Follows threads { m.move i (.inside call (body call)) with owner := some i }
      (s.step threads body i) := by
  rcases h.free hfree with ⟨hobject, hhistory⟩
  have hcall := h.waiting i call hplace
  have hserved : s.step threads body i =
      { object := ((body call).run m.object).2,
        history := m.history ++ [⟨i, call, ((body call).run m.object).1⟩] } := by
    simp [Serial.step, hhistory, hcall, hobject]
  have hnobody : ∀ j call' rest, m.place j ≠ .inside call' rest := by
    intro j call' rest hj
    have hown := (h.inside j call' rest hj).1
    simp [hfree] at hown
  rw [hserved]
  refine ⟨?_, ?_, by simp, ?_⟩
  · intro j call' rest hj
    by_cases hne : j = i
    · subst hne
      have hsame : call = call' ∧ body call = rest := by simpa using hj
      rcases hsame with ⟨rfl, rfl⟩
      exact ⟨rfl, rfl, rfl⟩
    · rw [place_move_ne hne] at hj
      exact absurd hj (hnobody j call' rest)
  · intro j hj
    have hji : i = j := by simpa using hj
    exact ⟨call, body call, by simp [← hji]⟩
  · intro j call' hj
    by_cases hne : j = i
    · simp [hne] at hj
    · rw [place_move_ne hne] at hj
      exact h.waiting j call' hj

/-- One access: the serial run has made it already. -/
theorem Follows.access (h : Follows threads m s) {call : κ} {f : σ → σ} {k : σ → Section σ ρ}
    (hplace : m.place i = .inside call (.access f k)) :
    Follows threads { m.move i (.inside call (k m.object)) with object := f m.object } s := by
  rcases h.inside i call _ hplace with ⟨hown, hobject, hhistory⟩
  refine ⟨?_, ?_, ?_, ?_⟩
  · intro j call' rest hj
    by_cases hne : j = i
    · subst hne
      have hsame : call = call' ∧ k m.object = rest := by simpa using hj
      rcases hsame with ⟨rfl, rfl⟩
      exact ⟨hown, hobject, hhistory⟩
    · rw [place_move_ne hne] at hj
      exact absurd (h.alone hplace hj) hne
  · intro j hj
    have hji : i = j := by
      have hsome : m.owner = some j := hj
      rw [hown] at hsome
      exact Option.some.inj hsome
    exact ⟨call, k m.object, by simp [← hji]⟩
  · intro hfree
    have hnone : m.owner = none := hfree
    simp [hown] at hnone
  · intro j call' hj
    by_cases hne : j = i
    · simp [hne] at hj
    · rw [place_move_ne hne] at hj
      exact h.waiting j call' hj

/-- A thread returns and gives the mutex back. -/
theorem Follows.giveBack (h : Follows threads m s) {call : κ} {r : ρ}
    (hplace : m.place i = .inside call (.reply r)) :
    Follows threads { m.move i .idle with
      owner := none, history := m.history ++ [⟨i, call, r⟩] } s := by
  rcases h.inside i call _ hplace with ⟨hown, hobject, hhistory⟩
  refine ⟨?_, by simp, fun _ => ⟨hobject, hhistory⟩, ?_⟩
  · intro j call' rest hj
    by_cases hne : j = i
    · simp [hne] at hj
    · rw [place_move_ne hne] at hj
      exact absurd (h.alone hplace hj) hne
  · intro j call' hj
    by_cases hne : j = i
    · simp [hne] at hj
    · rw [place_move_ne hne] at hj
      rw [Returned.repliesTo_append_ne hne]
      exact h.waiting j call' hj

variable (body) in
/-- A step is a call of the serial run if it is the one that gets the mutex, and nothing there
otherwise. -/
theorem follows_step (h : Follows threads m s) (i : ι) :
    Follows threads (m.step threads body i) s ∨
      Follows threads (m.step threads body i) (s.step threads body i) := by
  unfold step
  cases hplace : m.place i with
  | idle =>
      left
      cases hcall : threads i (Returned.repliesTo m.history i) with
      | none => exact h
      | some call => exact h.call hplace hcall
  | waiting call =>
      cases hown : m.owner with
      | some j => exact Or.inl h
      | none => exact Or.inr (h.acquire hplace hown)
  | inside call rest =>
      left
      cases rest with
      | reply r => exact h.giveBack hplace
      | access f k => exact h.access hplace

variable (body) in
theorem follows_run (h : Follows threads m s) (schedule : List ι) :
    ∃ calls : List ι, calls.Sublist schedule ∧
      Follows threads (m.run threads body schedule) (s.run threads body calls) := by
  induction schedule generalizing m s with
  | nil => exact ⟨[], .slnil, h⟩
  | cons i schedule ih =>
      rcases follows_step body h i with hstep | hstep
      · rcases ih hstep with ⟨calls, hsub, hrun⟩
        exact ⟨calls, hsub.cons i, hrun⟩
      · rcases ih hstep with ⟨calls, hsub, hrun⟩
        exact ⟨i :: calls, hsub.cons_cons i, hrun⟩

end

/-- Whatever the schedule, the object and its history are those of a run in which every call is one
step, taken at a step of its own thread; only the reply of a call under way is missing from the
history, and only until the mutex is free. -/
theorem refines (threads : Threads ι κ ρ) (body : κ → Section σ ρ) (object : σ)
    (schedule : List ι) :
    ∃ calls : List ι, calls.Sublist schedule ∧
      let m := (new object : Monitor ι κ σ ρ).run threads body schedule
      let s := ({ object := object, history := [] } : Serial ι κ σ ρ).run threads body calls
      Follows threads m s ∧
        (m.owner = none → m.object = s.object ∧ m.history = s.history) ∧
        ∃ underWay, s.history = m.history ++ underWay ∧ underWay.length ≤ 1 := by
  rcases follows_run body (follows_new threads object) schedule with
    ⟨calls, hsub, hrun⟩
  refine ⟨calls, hsub, hrun, ?_, ?_⟩
  · intro hfree
    rcases hrun.free hfree with ⟨hobject, hhistory⟩
    exact ⟨hobject.symm, hhistory.symm⟩
  · cases hown : (run threads body schedule (new object : Monitor ι κ σ ρ)).owner with
    | none => exact ⟨[], by simp [(hrun.free hown).2], by simp⟩
    | some i =>
        rcases hrun.held i hown with ⟨call, rest, hplace⟩
        exact ⟨_, (hrun.inside i call rest hplace).2.2, by simp⟩

/-! ## What holds at every moment -/

/-- All through a section under way `P` holds of the object, for the history there is. -/
def Steady (P : List (Returned ι κ ρ) → σ → Prop) (m : Monitor ι κ σ ρ) : Prop :=
  P m.history m.object ∧ ∀ i call rest, m.place i = .inside call rest →
    rest.Always (P m.history) m.object

section

variable {P : List (Returned ι κ ρ) → σ → Prop} {Sound : Serial ι κ σ ρ → Prop}
  (hsound : ∀ s, Sound s → P s.history s.object)
  (hcall : ∀ s call, Sound s → (body call).Always (P s.history) s.object)

include hsound hcall

theorem steady_step {m : Monitor ι κ σ ρ} {s : Serial ι κ σ ρ} (h : Follows threads m s)
    (hs : Sound s) (hm : Steady P m) (i : ι) : Steady P (m.step threads body i) := by
  have hmove : ∀ {place : Place κ σ ρ}, (∀ call rest, place ≠ .inside call rest) →
      Steady P (m.move i place) := by
    intro place hnot
    refine ⟨hm.1, ?_⟩
    intro j call rest hj
    by_cases hne : j = i
    · subst hne
      rw [place_move_self] at hj
      exact absurd hj (hnot call rest)
    · rw [place_move_ne hne] at hj
      exact hm.2 j call rest hj
  unfold step
  cases hplace : m.place i with
  | idle =>
      cases threads i (Returned.repliesTo m.history i) with
      | none => exact hm
      | some call => exact hmove (by simp)
  | waiting call =>
      cases hown : m.owner with
      | some j => exact hm
      | none =>
          rcases h.free hown with ⟨hobject, hhistory⟩
          refine ⟨hm.1, ?_⟩
          intro j call' rest hj
          by_cases hne : j = i
          · subst hne
            have hsame : call = call' ∧ body call = rest := by simpa using hj
            have hall := hcall s call hs
            rw [hobject, hhistory] at hall
            exact hsame.2 ▸ hall
          · rw [place_move_ne hne] at hj
            exact hm.2 j call' rest hj
  | inside call rest =>
      have hall := hm.2 i call rest hplace
      cases rest with
      | reply r =>
          -- the call has been served, so the object is that of the serial run
          rcases h.inside i call _ hplace with ⟨-, hobject, hhistory⟩
          have hafter := hsound s hs
          rw [hobject, hhistory] at hafter
          refine ⟨hafter, ?_⟩
          intro j call' rest hj
          by_cases hne : j = i
          · simp [hne] at hj
          · rw [place_move_ne hne] at hj
            exact absurd (h.alone hplace hj) hne
      | access f k =>
          refine ⟨hall.2.now, ?_⟩
          intro j call' rest hj
          by_cases hne : j = i
          · subst hne
            have hsame : call = call' ∧ k m.object = rest := by simpa using hj
            exact hsame.2 ▸ hall.2
          · rw [place_move_ne hne] at hj
            exact absurd (h.alone hplace hj) hne

/-- What holds all through every call of a serial run holds at every moment of every run. -/
theorem always (hkept : ∀ s i, Sound s → Sound (s.step threads body i)) {object : σ}
    (hobject : Sound { object := object, history := [] }) (schedule : List ι) :
    let m := (new object : Monitor ι κ σ ρ).run threads body schedule
    P m.history m.object := by
  have hrun : ∀ (schedule : List ι) {m : Monitor ι κ σ ρ} {s : Serial ι κ σ ρ},
      Follows threads m s → Sound s → Steady P m → Steady P (m.run threads body schedule) := by
    intro schedule
    induction schedule with
    | nil => exact fun _ _ hm => hm
    | cons i schedule ih =>
        intro m s hfollows hs hm
        have hsteady := steady_step hsound hcall hfollows hs hm i
        rcases follows_step body hfollows i with hstep | hstep
        · exact ih hstep hs hsteady
        · exact ih hstep (hkept s i hs) hsteady
  have hnew : Steady P (new object : Monitor ι κ σ ρ) := ⟨hsound _ hobject, by simp [new]⟩
  exact (hrun schedule (follows_new threads object) hobject hnew).1

end

/-! ## Nobody waits for ever -/

variable {m : Monitor ι κ σ ρ} {s : Serial ι κ σ ρ} {i j : ι}

/-- As long as a thread has something to do, some thread can go on. -/
theorem exists_able (h : Follows threads m s) (hleft : ∃ i, ¬ Finished threads m i) :
    ∃ i, ¬ Finished threads m i ∧ ¬ Blocked m i := by
  rcases hleft with ⟨i, hi⟩
  cases hown : m.owner with
  | none => exact ⟨i, hi, fun hblocked => hblocked.2 hown⟩
  | some j =>
      -- the thread that holds the mutex is in its section
      rcases h.held j hown with ⟨call, rest, hplace⟩
      refine ⟨j, ?_, ?_⟩
      · intro hfinished
        simp [hfinished.1] at hplace
      · rintro ⟨⟨call', hwaiting⟩, -⟩
        simp [hwaiting] at hplace

/-- A step moves no other thread. -/
theorem place_step_ne (hne : j ≠ i) : (m.step threads body j).place i = m.place i := by
  unfold step
  cases m.place j with
  | idle =>
      cases threads j (Returned.repliesTo m.history j) with
      | none => rfl
      | some call => exact place_move_ne hne.symm m _
  | waiting call =>
      cases m.owner with
      | some i' => rfl
      | none => exact place_move_ne hne.symm m _
  | inside call rest =>
      cases rest with
      | reply r => exact place_move_ne hne.symm m _
      | access f k => exact place_move_ne hne.symm m _

variable (body) in
/-- A step of another thread leaves a section that is under way as it is. -/
theorem step_of_held (h : Follows threads m s) {call : κ} {rest : Section σ ρ}
    (hplace : m.place i = .inside call rest) (hne : j ≠ i) :
    (m.step threads body j).place i = .inside call rest ∧
      (m.step threads body j).object = m.object := by
  have hown := (h.inside i call rest hplace).1
  refine ⟨by rw [place_step_ne hne, hplace], ?_⟩
  unfold step
  cases hj : m.place j with
  | idle => cases threads j (Returned.repliesTo m.history j) <;> rfl
  | waiting call' => rw [hown]
  | inside call' rest' => exact absurd (h.alone hplace hj) hne

/-- A thread that holds the mutex gives it back when it has made the accesses it has left. -/
theorem given_back (h : Follows threads m s) {call : κ} {rest : Section σ ρ}
    (hplace : m.place i = .inside call rest) (schedule : List ι)
    (henough : rest.length m.object < schedule.count i) :
    ∃ front back, schedule = front ++ back ∧ (m.run threads body front).owner = none := by
  induction schedule generalizing m s rest with
  | nil => simp at henough
  | cons j schedule ih =>
      have hnext : ∃ s', Follows threads (m.step threads body j) s' := by
        rcases follows_step body h j with hstep | hstep
        · exact ⟨_, hstep⟩
        · exact ⟨_, hstep⟩
      rcases hnext with ⟨s', hs'⟩
      -- a step that leaves it inside leads on by induction
      have hgo : ∀ {rest' : Section σ ρ},
          (m.step threads body j).place i = .inside call rest' →
          rest'.length (m.step threads body j).object < schedule.count i →
          ∃ front back, j :: schedule = front ++ back ∧ (m.run threads body front).owner = none := by
        intro rest' hplace' henough'
        rcases ih hs' hplace' henough' with ⟨front, back, hschedule, hfree⟩
        exact ⟨j :: front, back, by rw [hschedule, List.cons_append], hfree⟩
      by_cases hne : j = i
      · subst hne
        rw [List.count_cons_self] at henough
        cases rest with
        | reply r => exact ⟨[j], schedule, rfl, by simp [run, step, hplace]⟩
        | access f k =>
            have hstep : m.step threads body j =
                { m.move j (.inside call (k m.object)) with object := f m.object } := by
              simp [step, hplace]
            refine @hgo (k m.object) (by simp [hstep]) ?_
            rw [hstep]
            simp only [Section.length] at henough
            simpa using henough
      · rcases step_of_held body h hplace hne with ⟨hsame, hobject⟩
        refine hgo hsame ?_
        rw [hobject]
        rwa [List.count_cons_of_ne hne] at henough

/-- A section that is under way has no more accesses left than its call has in all. -/
theorem length_step {bound : κ → Nat} (hbound : ∀ call object, (body call).length object ≤ bound call)
    (h : Follows threads m s)
    (hleft : ∀ i call rest, m.place i = .inside call rest → rest.length m.object ≤ bound call)
    (j : ι) :
    ∀ i call rest, (m.step threads body j).place i = .inside call rest →
      rest.length (m.step threads body j).object ≤ bound call := by
  intro i call rest hplace
  by_cases hne : j = i
  · subst hne
    unfold step at hplace ⊢
    cases hj : m.place j with
    | idle =>
        rw [hj] at hplace
        cases hcall : threads j (Returned.repliesTo m.history j) with
        | none => simp [hcall, hj] at hplace
        | some call' => simp [hcall] at hplace
    | waiting call' =>
        rw [hj] at hplace
        cases hown : m.owner with
        | some i' => simp [hown, hj] at hplace
        | none =>
            have hsame : call' = call ∧ body call' = rest := by simpa [hown] using hplace
            rcases hsame with ⟨rfl, rfl⟩
            exact hbound call' _
    | inside call' rest' =>
        have hlength := hleft j call' rest' hj
        rw [hj] at hplace
        cases rest' with
        | reply r => simp at hplace
        | access f k =>
            have hsame : call' = call ∧ k m.object = rest := by simpa using hplace
            rcases hsame with ⟨rfl, rfl⟩
            simp only [Section.length] at hlength
            exact Nat.le_of_succ_le hlength
  -- a step of another thread: the section is where it was
  · cases hi : m.place i with
    | inside call' rest' =>
        rcases step_of_held body h hi hne with ⟨hsame, hobject⟩
        rw [hobject]
        exact hleft i call rest (by rw [hi, ← hsame, hplace])
    | idle => exact absurd hplace (by simp [place_step_ne hne, hi])
    | waiting call' => exact absurd hplace (by simp [place_step_ne hne, hi])

/-- Nobody waits for ever, in any run. -/
theorem live (threads : Threads ι κ ρ) {body : κ → Section σ ρ} {bound : κ → Nat}
    (hbound : ∀ call object, (body call).length object ≤ bound call) (object : σ)
    (schedule : List ι) :
    Live threads body bound ((new object : Monitor ι κ σ ρ).run threads body schedule) := by
  have hrun : ∀ (schedule : List ι) {m : Monitor ι κ σ ρ} {s : Serial ι κ σ ρ},
      Follows threads m s →
      (∀ i call rest, m.place i = .inside call rest → rest.length m.object ≤ bound call) →
      ∀ i call rest, (m.run threads body schedule).place i = .inside call rest →
        rest.length (m.run threads body schedule).object ≤ bound call := by
    intro schedule
    induction schedule with
    | nil => exact fun _ hleft => hleft
    | cons j schedule ih =>
        intro m s hm hleft
        have hlength := length_step hbound hm hleft j
        rcases follows_step body hm j with hstep | hstep
        · exact ih hstep hlength
        · exact ih hstep hlength
  rcases follows_run body (follows_new threads object) schedule with
    ⟨calls, -, hfollows⟩
  refine ⟨exists_able hfollows, ?_⟩
  intro i call rest hplace later henough
  have hlength := hrun schedule (follows_new threads object) (by simp [new]) i call rest
    hplace
  exact given_back hfollows hplace later (Nat.lt_of_le_of_lt hlength henough)

end Monitor

end Ruby
