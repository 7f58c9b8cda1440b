import Mathlib.Data.List.Forall2

/-!
# Each — a loop whose body may raise

`Array#each` with a body that acts on a state and may raise: the first exception ends the loop, and
what was done before it stays.

* `turns` lists the items that get their turn, each with the state it finds;
* `turns_of_ok` and `turns_of_raise` say which items these are;
* `forM_invariant`, `left_forM` and `forM_log` go from what one turn does to what a whole loop does: a
  property is kept, a log grows by one segment a turn;
* `forM_congr` compares two loops turn by turn.
-/

namespace Ruby
namespace Each

variable {ε σ α β γ : Type} {step : α → EStateM ε σ PUnit}

/-- The state a computation leaves, whether it raises or not. -/
def left : EStateM.Result ε σ α → σ
  | .ok _ s => s
  | .error _ s => s

@[simp] theorem left_ok (a : α) (s : σ) : left (.ok a s : EStateM.Result ε σ α) = s := rfl

@[simp] theorem left_error (e : ε) (s : σ) : left (.error e s : EStateM.Result ε σ α) = s := rfl

/-! ## Steps -/

theorem bind_eq (m : EStateM ε σ α) (k : α → EStateM ε σ β) (s : σ) :
    (m >>= k) s =
      match m s with
      | .ok a s' => k a s'
      | .error e s' => .error e s' := by
  simp only [bind, EStateM.bind]
  cases m s <;> rfl

theorem pure_eq (a : α) (s : σ) : (pure a : EStateM ε σ α) s = .ok a s := rfl

theorem get_eq (s : σ) : (get : EStateM ε σ σ) s = .ok s s := rfl

theorem modify_eq (f : σ → σ) (s : σ) : (modify f : EStateM ε σ PUnit) s = .ok () (f s) := rfl

theorem modifyGet_eq (f : σ → α × σ) (s : σ) :
    (modifyGet f : EStateM ε σ α) s = .ok (f s).1 (f s).2 := rfl

/-! ## Turns -/

def turns (step : α → EStateM ε σ PUnit) : List α → σ → List (α × σ)
  | [], _ => []
  | x :: xs, s =>
      (x, s) ::
        match step x s with
        | .ok _ s' => turns step xs s'
        | .error _ _ => []

theorem forM_nil (s : σ) : ([] : List α).forM step s = .ok () s := rfl

theorem forM_cons (x : α) (xs : List α) (s : σ) :
    (x :: xs).forM step s =
      match step x s with
      | .ok _ s' => xs.forM step s'
      | .error e s' => .error e s' := by
  simp only [List.forM_eq_forM, List.forM_cons, bind_eq]
  cases step x s <;> rfl

theorem forM_cons_ok {x : α} {s s' : σ} (xs : List α) (h : step x s = .ok () s') :
    (x :: xs).forM step s = xs.forM step s' := by
  rw [forM_cons, h]

theorem forM_cons_error {x : α} {e : ε} {s s' : σ} (xs : List α) (h : step x s = .error e s') :
    (x :: xs).forM step s = .error e s' := by
  rw [forM_cons, h]

/-- A loop that ends normally gave every item its turn. -/
theorem turns_of_ok {xs : List α} :
    ∀ {s s' : σ}, xs.forM step s = .ok () s' → (turns step xs s).map Prod.fst = xs := by
  induction xs with
  | nil =>
      intro s s' _
      rfl
  | cons x xs ih =>
      intro s s' h
      rw [forM_cons] at h
      cases hstep : step x s with
      | ok u s₁ =>
          rw [hstep] at h
          simp [turns, hstep, ih h]
      | error e s₁ => simp [hstep] at h

/-- A turn that raises ends the loop: it is the last one, and the items behind it get none. -/
theorem turns_of_raise {e : ε} {x : α} {sx s' : σ} {xs : List α} :
    ∀ {s : σ}, (x, sx) ∈ turns step xs s → step x sx = .error e s' →
      xs.forM step s = .error e s' ∧
        ∃ front back before, xs = front ++ x :: back ∧
          turns step xs s = before ++ [(x, sx)] ∧ before.map Prod.fst = front := by
  induction xs with
  | nil =>
      intro s h _
      simp [turns] at h
  | cons y xs ih =>
      intro s h hraise
      rw [forM_cons]
      cases hstep : step y s with
      -- this turn does not raise, so the one that does is behind it
      | ok u s₁ =>
          have hrest : (x, sx) ∈ turns step xs s₁ := by
            simp only [turns, hstep, List.mem_cons] at h
            rcases h with heq | hrest
            · cases heq
              rw [hraise] at hstep
              cases hstep
            · exact hrest
          rcases ih hrest hraise with ⟨hrun, front, back, before, hxs, hturns, hfront⟩
          refine ⟨hrun, y :: front, back, (y, s) :: before, by simp [hxs], ?_, by simp [hfront]⟩
          simp [turns, hstep, hturns]
      -- this turn raises, so it is the one
      | error e' s₁ =>
          have hhead : (x, sx) = (y, s) := by simpa [turns, hstep] using h
          cases hhead
          have hsame := hstep.symm.trans hraise
          cases hsame
          exact ⟨rfl, [], xs, [], rfl, by simp [turns, hstep], rfl⟩

section Invariant

variable {P : σ → Prop} {xs : List α}
  (hstep : ∀ x ∈ xs, ∀ s s', P s → step x s = .ok () s' → P s')

include hstep

/-- What every turn keeps holds at every turn. -/
theorem turns_invariant : ∀ {s : σ}, P s → ∀ turn ∈ turns step xs s, P turn.2 := by
  induction xs with
  | nil =>
      intro s _ turn hturn
      simp [turns] at hturn
  | cons x xs ih =>
      intro s hs turn hturn
      simp only [turns, List.mem_cons] at hturn
      rcases hturn with rfl | hrest
      · exact hs
      · cases hx : step x s with
        | ok u s₁ =>
            rw [hx] at hrest
            exact ih (fun y hy => hstep y (by simp [hy])) (hstep x (by simp) s s₁ hs hx) turn hrest
        | error e s₁ => simp [hx] at hrest

theorem forM_invariant : ∀ {s s' : σ}, P s → xs.forM step s = .ok () s' → P s' := by
  induction xs with
  | nil =>
      intro s s' hs h
      cases h
      exact hs
  | cons x xs ih =>
      intro s s' hs h
      rw [forM_cons] at h
      cases hx : step x s with
      | ok u s₁ =>
          rw [hx] at h
          exact ih (fun y hy => hstep y (by simp [hy])) (hstep x (by simp) s s₁ hs hx) h
      | error e s₁ => simp [hx] at h

/-- Two loops whose turns are the same wherever the first one gets go the same way. -/
theorem forM_congr {step' : α → EStateM ε σ PUnit} (hsame : ∀ x ∈ xs, ∀ s, P s → step' x s = step x s) :
    ∀ {s : σ}, P s → xs.forM step' s = xs.forM step s := by
  induction xs with
  | nil =>
      intro s _
      rfl
  | cons x xs ih =>
      intro s hs
      rw [forM_cons, forM_cons, hsame x (by simp) s hs]
      cases hx : step x s with
      | ok u s₁ =>
          have hs₁ := hstep x (by simp) s s₁ hs hx
          exact ih (fun y hy => hstep y (by simp [hy])) (fun y hy => hsame y (by simp [hy])) hs₁
      | error e s₁ => rfl

end Invariant

/-- What every turn keeps, also one that raises, the loop keeps. -/
theorem left_forM {P : σ → Prop} {xs : List α}
    (hstep : ∀ x ∈ xs, ∀ s, P s → P (left (step x s))) :
    ∀ {s : σ}, P s → P (left (xs.forM step s)) := by
  induction xs with
  | nil =>
      intro s hs
      exact hs
  | cons x xs ih =>
      intro s hs
      have hx := hstep x (by simp) s hs
      rw [forM_cons]
      cases hrun : step x s with
      | ok u s₁ =>
          rw [hrun] at hx
          exact ih (fun y hy => hstep y (by simp [hy])) hx
      | error e s₁ =>
          rw [hrun] at hx
          exact hx

/-- When every turn adds a segment to a log, the loop adds the segments of its turns in order. -/
theorem forM_log {log : σ → List β} {Segment : α × σ → List β → Prop}
    (hstep : ∀ x s s', step x s = .ok () s' → ∃ seg, log s' = log s ++ seg ∧ Segment (x, s) seg)
    {xs : List α} :
    ∀ {s s' : σ}, xs.forM step s = .ok () s' →
      ∃ segs, log s' = log s ++ segs.flatten ∧ List.Forall₂ Segment (turns step xs s) segs := by
  induction xs with
  | nil =>
      intro s s' h
      cases h
      exact ⟨[], by simp, .nil⟩
  | cons x xs ih =>
      intro s s' h
      rw [forM_cons] at h
      cases hx : step x s with
      | ok u s₁ =>
          rw [hx] at h
          rcases hstep x s s₁ hx with ⟨seg, hlog, hseg⟩
          rcases ih h with ⟨segs, hlog', hsegs⟩
          refine ⟨seg :: segs, by simp [hlog', hlog], ?_⟩
          simpa [turns, hx] using List.Forall₂.cons hseg hsegs
      | error e s₁ => simp [hx] at h

end Each
end Ruby
