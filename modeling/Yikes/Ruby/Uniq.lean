import Mathlib.Data.List.Sort

/-!
# Uniq — which of two elements stands first

`Before l x y` says that `x` occurs in `l` and `y` does not occur in front of it.  Neither a filter nor
`Array#uniq` (`List.eraseDups`, which keeps first occurrences) changes that for the elements that are
kept, so a list is in order by first occurrences exactly if `uniq` of it is in order
(`pairwise_eraseDups_iff`).
-/

namespace Ruby

variable {α : Type*} [BEq α] [LawfulBEq α]

def Before (l : List α) (x y : α) : Prop :=
  l.idxOf x < l.idxOf y

instance (l : List α) (x y : α) : Decidable (Before l x y) :=
  inferInstanceAs (Decidable (_ < _))

variable {l : List α} {x y : α}

theorem before_cons {a : α} : Before (a :: l) x y ↔ a ≠ y ∧ (a = x ∨ Before l x y) := by
  by_cases hy : a = y
  · subst hy
    simp [Before]
  · by_cases hx : a = x
    · subst hx
      simp [Before, List.idxOf_cons_ne l hy, hy]
    · simp [Before, List.idxOf_cons_ne l hy, List.idxOf_cons_ne l hx, hy, hx]

/-- One of two different elements stands first. -/
theorem before_or_before (hx : x ∈ l) (hne : x ≠ y) : Before l x y ∨ Before l y x := by
  have hidx : l.idxOf x ≠ l.idxOf y := fun h => hne ((List.idxOf_inj hx).1 h)
  exact Nat.lt_or_gt_of_ne hidx

/-! ## Lists with fewer elements -/

theorem before_filter {p : α → Bool} (hx : p x = true) (hy : p y = true) :
    Before (l.filter p) x y ↔ Before l x y := by
  induction l with
  | nil => rfl
  | cons a l ih =>
      by_cases ha : p a = true
      · rw [List.filter_cons_of_pos ha, before_cons, before_cons, ih]
      · have hax : a ≠ x := by
          rintro rfl
          exact ha hx
        have hay : a ≠ y := by
          rintro rfl
          exact ha hy
        rw [List.filter_cons_of_neg ha, before_cons, ih]
        simp [hax, hay]

theorem before_eraseDups : (l : List α) → (Before l.eraseDups x y ↔ Before l x y)
  | [] => by simp
  | a :: l => by
      have ih := before_eraseDups (l.filter fun b => !b == a)
      rw [List.eraseDups_cons, before_cons, before_cons, ih]
      by_cases hax : a = x
      · simp [hax]
      · by_cases hay : a = y
        · simp [hay]
        · -- neither of them is taken out
          rw [before_filter (by simpa using Ne.symm hax) (by simpa using Ne.symm hay)]
termination_by l => l.length
decreasing_by exact Nat.lt_succ_of_le (List.length_filter_le _ _)

/-- `uniq` makes an order strict. -/
theorem pairwise_eraseDups {R : α → α → Prop} :
    (l : List α) → l.Pairwise R → l.eraseDups.Pairwise fun a b => R a b ∧ a ≠ b
  | [], _ => by simp
  | a :: l, h => by
      have hl := List.pairwise_cons.1 h
      have hrest := pairwise_eraseDups (l.filter fun b => !b == a) (hl.2.filter _)
      rw [List.eraseDups_cons, List.pairwise_cons]
      refine ⟨?_, hrest⟩
      intro b hb
      have hmem : b ∈ l ∧ b ≠ a := by simpa using List.mem_eraseDups.1 hb
      exact ⟨hl.1 b hmem.1, Ne.symm hmem.2⟩
termination_by l => l.length
decreasing_by exact Nat.lt_succ_of_le (List.length_filter_le _ _)

theorem nodup_eraseDups (l : List α) : l.eraseDups.Nodup :=
  (pairwise_eraseDups (R := fun _ _ => True) l (List.pairwise_of_forall fun _ _ => trivial)).imp
    fun h => h.2

/-! ## Lists in order -/

theorem pairwise_iff_before {R : α → α → Prop} (h : l.Nodup) :
    l.Pairwise R ↔ ∀ x ∈ l, ∀ y ∈ l, Before l x y → R x y := by
  induction l with
  | nil => simp
  | cons a l ih =>
      have hl := List.nodup_cons.1 h
      rw [List.pairwise_cons, ih hl.2]
      constructor
      · rintro ⟨ha, hrest⟩ x hx y hy hbefore
        rcases before_cons.1 hbefore with ⟨hay, hcases⟩
        have hy' : y ∈ l := by simpa [Ne.symm hay] using hy
        by_cases hax : a = x
        · exact hax ▸ ha y hy'
        · have hx' : x ∈ l := by simpa [Ne.symm hax] using hx
          exact hrest x hx' y hy' (hcases.resolve_left hax)
      · intro hall
        constructor
        · intro y hy
          have hay : a ≠ y := by
            rintro rfl
            exact hl.1 hy
          exact hall a (by simp) y (by simp [hy]) (before_cons.2 ⟨hay, Or.inl rfl⟩)
        · intro x hx y hy hbefore
          have hay : a ≠ y := by
            rintro rfl
            exact hl.1 hy
          exact hall x (by simp [hx]) y (by simp [hy]) (before_cons.2 ⟨hay, Or.inr hbefore⟩)

/-- A list is in order by first occurrences. -/
theorem pairwise_eraseDups_iff {R : α → α → Prop} :
    l.eraseDups.Pairwise R ↔ ∀ x ∈ l, ∀ y ∈ l, Before l x y → R x y := by
  rw [pairwise_iff_before (nodup_eraseDups l)]
  simp only [List.mem_eraseDups, before_eraseDups]

/-- In a descending list the greater element stands first. -/
theorem before_iff_of_descending [LinearOrder α]
    (h : l.Pairwise (· > ·)) (hx : x ∈ l) (hy : y ∈ l) : Before l x y ↔ y < x := by
  have hnodup : l.Nodup := h.imp fun hab => (ne_of_lt hab).symm
  have hall := (pairwise_iff_before hnodup).1 h
  constructor
  · exact hall x hx y hy
  · intro hlt
    rcases before_or_before hx (ne_of_gt hlt) with hxy | hyx
    · exact hxy
    · exact absurd (hall y hy x hx hyx) (lt_asymm hlt)

end Ruby
