import Mathlib.Data.Set.Card
import Mathlib.Data.Set.Finite.Lattice
import Mathlib.Data.Set.Finite.Lemmas
import Mathlib.Logic.Relation

/-!
# Spread — sets that grow by what is made of their elements

`r a b` says that `b` can be made of `a`.  Spreading a set by `r` adds what can be made of its elements,
in one step; a `round` spreads it by several relations in turn.

* A set that is `Closed` does not grow, and no other set stays as it is (`round_eq_self_iff`);
* all that rounds can ever add is in `reach`.  When that is finite, as many rounds as there are things
  to add leave a closed set (`closed_iterate`);
* `reach` is finite when nothing is made of what is made (`finite_reach_of_ends`), or when everything is
  smaller than what it is made of (`finite_reach_of_lt`), and it is infinite when something larger can
  always be made (`infinite_reach_of_lt`).
-/

namespace Ruby
namespace Spread

variable {α : Type*} {r : α → α → Prop} {rs : List (α → α → Prop)} {F G : Set α}

/-- The set, and what is made of its elements. -/
def spread (r : α → α → Prop) (F : Set α) : Set α :=
  F ∪ {b | ∃ a ∈ F, r a b}

def Closed (r : α → α → Prop) (F : Set α) : Prop :=
  ∀ a ∈ F, ∀ b, r a b → b ∈ F

/-- Everything that can be made of the elements, in any number of steps. -/
def reach (r : α → α → Prop) (F : Set α) : Set α :=
  {b | ∃ a ∈ F, Relation.ReflTransGen r a b}

theorem subset_spread (r : α → α → Prop) (F : Set α) : F ⊆ spread r F :=
  Set.subset_union_left

theorem spread_subset (hsub : F ⊆ G) (hclosed : Closed r G) : spread r F ⊆ G := by
  rintro b (hb | ⟨a, ha, hab⟩)
  · exact hsub hb
  · exact hclosed a (hsub ha) b hab

theorem spread_eq_self_iff : spread r F = F ↔ Closed r F := by
  constructor
  · intro h a ha b hab
    rw [← h]
    exact Or.inr ⟨a, ha, hab⟩
  · intro h
    exact Set.Subset.antisymm (spread_subset Set.Subset.rfl h) (subset_spread r F)

theorem subset_reach (r : α → α → Prop) (F : Set α) : F ⊆ reach r F :=
  fun a ha => ⟨a, ha, .refl⟩

theorem closed_reach (r : α → α → Prop) (F : Set α) : Closed r (reach r F) := by
  rintro a ⟨x, hx, hxa⟩ b hab
  exact ⟨x, hx, hxa.tail hab⟩

theorem reach_subset (hsub : F ⊆ G) (hclosed : Closed r G) : reach r F ⊆ G := by
  rintro b ⟨a, ha, hab⟩
  induction hab with
  | refl => exact hsub ha
  | tail _ hstep ih => exact hclosed _ ih _ hstep

/-! ## Rounds -/

/-- `b` can be made of `a` by one of the relations. -/
def any (rs : List (α → α → Prop)) (a b : α) : Prop :=
  ∃ r ∈ rs, r a b

/-- The relations in turn. -/
def round (rs : List (α → α → Prop)) (F : Set α) : Set α :=
  rs.foldl (fun F r => spread r F) F

@[simp] theorem closed_any_nil : Closed (any []) F := by
  rintro a _ b ⟨r, hr, _⟩
  simp at hr

theorem closed_any_append {qs : List (α → α → Prop)} :
    Closed (any (rs ++ qs)) F ↔ Closed (any rs) F ∧ Closed (any qs) F := by
  constructor
  · intro h
    constructor
    · rintro a ha b ⟨r, hr, hab⟩
      exact h a ha b ⟨r, by simp [hr], hab⟩
    · rintro a ha b ⟨r, hr, hab⟩
      exact h a ha b ⟨r, by simp [hr], hab⟩
  · rintro ⟨hfirst, hrest⟩ a ha b ⟨r, hr, hab⟩
    rcases List.mem_append.1 hr with hr | hr
    · exact hfirst a ha b ⟨r, hr, hab⟩
    · exact hrest a ha b ⟨r, hr, hab⟩

theorem closed_any_singleton : Closed (any [r]) F ↔ Closed r F := by
  simp [Closed, any]

theorem closed_any_cons : Closed (any (r :: rs)) F ↔ Closed r F ∧ Closed (any rs) F := by
  rw [← List.singleton_append, closed_any_append, closed_any_singleton]

theorem round_append (rs qs : List (α → α → Prop)) (F : Set α) :
    round (rs ++ qs) F = round qs (round rs F) :=
  List.foldl_append

theorem round_replicate (rs : List (α → α → Prop)) (n : Nat) :
    round (List.replicate n rs).flatten = (round rs)^[n] := by
  induction n with
  | zero => rfl
  | succ n ih =>
      funext F
      rw [List.replicate_succ, List.flatten_cons, round_append, ih, Function.iterate_succ_apply]

theorem closed_any_replicate {n : Nat} (h : Closed (any rs) F) :
    Closed (any (List.replicate n rs).flatten) F := by
  rintro a ha b ⟨r, hr, hab⟩
  rcases List.mem_flatten.1 hr with ⟨qs, hqs, hr⟩
  rw [List.eq_of_mem_replicate hqs] at hr
  exact h a ha b ⟨r, hr, hab⟩

theorem subset_round (rs : List (α → α → Prop)) : ∀ F : Set α, F ⊆ round rs F := by
  induction rs with
  | nil =>
      intro F
      exact Set.Subset.rfl
  | cons r rs ih =>
      intro F
      exact (subset_spread r F).trans (ih (spread r F))

theorem round_subset (hclosed : Closed (any rs) G) : ∀ {F : Set α}, F ⊆ G → round rs F ⊆ G := by
  induction rs with
  | nil =>
      intro F hsub
      exact hsub
  | cons r rs ih =>
      intro F hsub
      rcases closed_any_cons.1 hclosed with ⟨hfirst, hrest⟩
      exact ih hrest (spread_subset hsub hfirst)

theorem round_eq_self_iff : round rs F = F ↔ Closed (any rs) F := by
  constructor
  · induction rs with
    | nil =>
        intro _
        exact closed_any_nil
    | cons r rs ih =>
        intro h
        -- nothing is taken away again, so the first relation adds nothing
        have hfirst : spread r F = F := by
          refine Set.Subset.antisymm ?_ (subset_spread r F)
          have hrest := subset_round rs (spread r F)
          exact hrest.trans (Set.Subset.antisymm_iff.1 h).1
        have hrest : round rs F = F := by
          have hround : round rs (spread r F) = F := h
          rwa [hfirst] at hround
        exact closed_any_cons.2 ⟨spread_eq_self_iff.1 hfirst, ih hrest⟩
  · intro h
    exact Set.Subset.antisymm (round_subset h Set.Subset.rfl) (subset_round rs F)

theorem mem_round_of {r : α → α → Prop} {a b : α} (hab : r a b) :
    ∀ {F : Set α}, r ∈ rs → a ∈ F → b ∈ round rs F := by
  induction rs with
  | nil =>
      intro F hr
      simp at hr
  | cons q rs ih =>
      intro F hr ha
      rcases List.mem_cons.1 hr with rfl | hr
      · exact subset_round rs _ (Or.inr ⟨a, ha, hab⟩)
      · exact ih hr (subset_spread q F ha)

theorem of_mem_round {b : α} : ∀ {F : Set α}, b ∈ round rs F → b ∈ F ∨ ∃ a, any rs a b := by
  induction rs with
  | nil =>
      intro F hb
      exact Or.inl hb
  | cons r rs ih =>
      intro F hb
      rcases ih hb with (hb | ⟨a, _, hab⟩) | ⟨a, q, hq, hab⟩
      · exact Or.inl hb
      · exact Or.inr ⟨a, r, by simp, hab⟩
      · exact Or.inr ⟨a, q, by simp [hq], hab⟩

/-- One round is enough when nothing else is made of what is made. -/
theorem closed_round (hends : ∀ a b c, any rs a b → any rs b c → c = b) (F : Set α) :
    Closed (any rs) (round rs F) := by
  intro b hb c hbc
  rcases of_mem_round hb with hold | ⟨a, hab⟩
  · rcases hbc with ⟨r, hr, hbc⟩
    exact mem_round_of hbc hr hold
  · rw [hends a b c hab hbc]
    exact hb

/-- One round is one spreading when nothing is made of what is made. -/
theorem round_eq_spread (hends : ∀ a b c, any rs a b → ¬ any rs b c) (F : Set α) :
    round rs F = spread (any rs) F := by
  have hclosed : Closed (any rs) (spread (any rs) F) := by
    rintro b (hb | ⟨a, _, hab⟩) c hbc
    · exact Or.inr ⟨b, hb, hbc⟩
    · exact absurd hbc (hends a b c hab)
  refine Set.Subset.antisymm (round_subset hclosed (subset_spread _ F)) ?_
  rintro b (hb | ⟨a, ha, r, hr, hab⟩)
  · exact subset_round rs F hb
  · exact mem_round_of hab hr ha

theorem iterate_subset_reach (rs : List (α → α → Prop)) (F : Set α) (n : Nat) :
    (round rs)^[n] F ⊆ reach (any rs) F := by
  induction n with
  | zero => exact subset_reach _ F
  | succ n ih =>
      rw [Function.iterate_succ_apply']
      exact round_subset (closed_reach _ F) ih

/-- A set that is not closed gets something that was still to come. -/
theorem ncard_round (hfinite : (reach (any rs) F).Finite) (hsub : G ⊆ reach (any rs) F)
    (hopen : ¬ Closed (any rs) G) :
    (reach (any rs) F \ round rs G).ncard < (reach (any rs) F \ G).ncard := by
  refine Set.ncard_lt_ncard ?_ (hfinite.sdiff (t := G))
  refine Set.ssubset_iff_subset_ne.2 ⟨Set.sdiff_subset_sdiff_right (subset_round rs G), ?_⟩
  intro heq
  apply hopen
  rw [← round_eq_self_iff]
  refine Set.Subset.antisymm ?_ (subset_round rs G)
  intro b hb
  by_contra hnew
  have hdiff : b ∈ reach (any rs) F \ round rs G := by
    rw [heq]
    exact ⟨round_subset (closed_reach _ F) hsub hb, hnew⟩
  exact hdiff.2 hb

/-- While the set is not closed, every round takes one of the things that are still to come. -/
theorem ncard_iterate (hfinite : (reach (any rs) F).Finite) (n : Nat) :
    Closed (any rs) ((round rs)^[n] F) ∨
      (reach (any rs) F \ (round rs)^[n] F).ncard + n ≤ (reach (any rs) F \ F).ncard := by
  induction n with
  | zero => exact Or.inr (Nat.le_refl _)
  | succ n ih =>
      rw [Function.iterate_succ_apply']
      by_cases hclosed : Closed (any rs) ((round rs)^[n] F)
      · rw [round_eq_self_iff.2 hclosed]
        exact Or.inl hclosed
      · right
        have hcard := ih.resolve_left hclosed
        have hless := ncard_round hfinite (iterate_subset_reach rs F n) hclosed
        omega

/-- As many rounds as there are things to add leave nothing to add. -/
theorem closed_iterate (hfinite : (reach (any rs) F).Finite) {n : Nat}
    (hn : (reach (any rs) F \ F).ncard ≤ n) : Closed (any rs) ((round rs)^[n] F) := by
  rcases ncard_iterate hfinite n with hclosed | hcard
  · exact hclosed
  · have hzero : (reach (any rs) F \ (round rs)^[n] F).ncard = 0 := by omega
    have hnil := (Set.ncard_eq_zero (hfinite.sdiff (t := (round rs)^[n] F))).1 hzero
    have hall : (round rs)^[n] F = reach (any rs) F :=
      Set.Subset.antisymm (iterate_subset_reach rs F n) (Set.sdiff_eq_empty.1 hnil)
    rw [hall]
    exact closed_reach _ F

/-! ## When the reach is finite -/

theorem finite_any (hfew : ∀ r ∈ rs, ∀ a, {b | r a b}.Finite) (a : α) : {b | any rs a b}.Finite := by
  refine (rs.finite_toSet.biUnion fun r hr => hfew r hr a).subset ?_
  rintro b ⟨r, hr, hab⟩
  exact Set.mem_biUnion hr hab

/-- Nothing else is made of what is made. -/
theorem finite_reach_of_ends (hF : F.Finite) (hfew : ∀ a, {b | r a b}.Finite)
    (hends : ∀ a b c, r a b → r b c → c = b) : (reach r F).Finite := by
  have hclosed : Closed r (spread r F) := by
    rintro a (ha | ⟨x, hx, hxa⟩) b hab
    · exact Or.inr ⟨a, ha, hab⟩
    · rw [hends x a b hxa hab]
      exact Or.inr ⟨x, hx, hxa⟩
  have hspread : (spread r F).Finite := by
    refine hF.union ((hF.biUnion fun a _ => hfew a).subset ?_)
    rintro b ⟨a, ha, hab⟩
    exact Set.mem_biUnion ha hab
  exact hspread.subset (reach_subset (subset_spread r F) hclosed)

/-- Everything is smaller than what it is made of. -/
theorem finite_reach_of_lt {μ : α → Nat} (hF : F.Finite) (hfew : ∀ a, {b | r a b}.Finite)
    (hlt : ∀ a b, r a b → μ b < μ a) : (reach r F).Finite := by
  have hone : ∀ n a, μ a < n → {b | Relation.ReflTransGen r a b}.Finite := by
    intro n
    induction n with
    | zero =>
        intro a ha
        exact absurd ha (Nat.not_lt_zero _)
    | succ n ih =>
        intro a ha
        have hrest : (⋃ c ∈ {c | r a c}, {b | Relation.ReflTransGen r c b}).Finite := by
          refine (hfew a).biUnion ?_
          intro c hc
          have hless := hlt a c hc
          exact ih c (by omega)
        refine ((Set.finite_singleton a).union hrest).subset ?_
        intro b hb
        rcases Relation.ReflTransGen.cases_head hb with rfl | ⟨c, hac, hcb⟩
        · exact Or.inl rfl
        · exact Or.inr (Set.mem_biUnion (show c ∈ {c | r a c} from hac) hcb)
  refine (hF.biUnion fun a _ => hone (μ a + 1) a (Nat.lt_succ_self _)).subset ?_
  rintro b ⟨a, ha, hab⟩
  exact Set.mem_biUnion ha hab

/-- Something larger can always be made. -/
theorem infinite_reach_of_lt {μ : α → Nat} {P : α → Prop}
    (hmake : ∀ a, P a → ∃ b, r a b ∧ P b ∧ μ a < μ b) (hP : ∃ a ∈ F, P a) :
    ¬ (reach r F).Finite := by
  intro hfinite
  have hfinite' : {a | a ∈ reach r F ∧ P a}.Finite := hfinite.subset fun a ha => ha.1
  rcases hP with ⟨a, ha, hPa⟩
  rcases Set.exists_max_image {a | a ∈ reach r F ∧ P a} μ hfinite'
    ⟨a, subset_reach r F ha, hPa⟩ with ⟨largest, ⟨hmem, hlargest⟩, hmax⟩
  rcases hmake largest hlargest with ⟨b, hb, hPb, hless⟩
  have hle := hmax b ⟨closed_reach r F largest hmem b hb, hPb⟩
  omega

end Spread
end Ruby
