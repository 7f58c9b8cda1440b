import Yikes.Properties.Fill
import Yikes.Properties.Raise

/-!
# Rest — whether the polling loop comes to rest

Every round of the polling loop makes a pass with every engine, over and over.  What the rounds do to
the files is what their flows do (`Spreads`), so whether there is a round after which nothing is
converted any more can be read off the flows and the files there are at first.

* `rest_iff_finite`: the loop comes to rest when what the flows can make of the files is finite, after
  as many rounds as there are outputs to make at most, and if it is not, no round is quiet;
* `rest_iff_not_inner`: with one engine, it does not when the target is inside the library;
* `rest_of_apart`: when no library sees a target, one round is enough.
-/

namespace Yikes

open Ruby

namespace Engine

variable {τ : Type}

/-- From `w` to `w'` the files are spread by `rs`, and something was converted if and only if that was
not all there already. -/
structure Spreads (rs : List (Loc → Loc → Prop)) (w w' : World τ) : Prop where
  events : ∃ events, w'.events = w.events ++ events
  files : filesOf w'.fs.tree = Spread.round rs (filesOf w.fs.tree)
  quiet : Spread.Closed (Spread.any rs) (filesOf w.fs.tree) → Quiet w w'
  called : ¬ Spread.Closed (Spread.any rs) (filesOf w.fs.tree) → Called w w'

theorem quiet_refl (w : World τ) : Quiet w w :=
  ⟨⟨[], by simp⟩, fun _ _ h => h⟩

namespace Spreads

variable {rs qs : List (Loc → Loc → Prop)} {w w' w'' : World τ}

theorem refl (w : World τ) : Spreads [] w w :=
  ⟨⟨[], by simp⟩, rfl, fun _ => quiet_refl w, fun hopen => absurd Spread.closed_any_nil hopen⟩

theorem filesOf_of_closed (h : Spreads rs w w')
    (hclosed : Spread.Closed (Spread.any rs) (filesOf w.fs.tree)) :
    filesOf w'.fs.tree = filesOf w.fs.tree := by
  rw [h.files, Spread.round_eq_self_iff.2 hclosed]

theorem trans (h : Spreads rs w w') (h' : Spreads qs w' w'') : Spreads (rs ++ qs) w w'' where
  events := by
    rcases h.events with ⟨events, heq⟩
    rcases h'.events with ⟨events', heq'⟩
    exact ⟨events ++ events', by rw [heq', heq, List.append_assoc]⟩
  files := by rw [h'.files, h.files, Spread.round_append]
  quiet := by
    intro hclosed
    rw [Spread.closed_any_append] at hclosed
    refine (h.quiet hclosed.1).trans (h'.quiet ?_)
    rw [h.filesOf_of_closed hclosed.1]
    exact hclosed.2
  called := by
    intro hopen
    by_cases hclosed : Spread.Closed (Spread.any rs) (filesOf w.fs.tree)
    · -- the first stretch has nothing to do, so the second one has
      refine Called.of_right h.events (h'.called ?_)
      rw [h.filesOf_of_closed hclosed]
      exact fun hrest => hopen (Spread.closed_any_append.2 ⟨hclosed, hrest⟩)
    · exact (h.called hclosed).of_left h'.events

end Spreads

end Engine

namespace EngineManager

variable {κ τ : Type} {engineOf : κ → Engine τ} {flowOf : Key → Flow}

/-! ## The registry in a round -/

def keys (p : Polling κ τ) : List Key :=
  p.engines.entries.map Prod.fst

/-- What the engines make. -/
def makes (flowOf : Key → Flow) (ks : List Key) : List (Loc → Loc → Prop) :=
  ks.map fun key => (flowOf key).Makes

/-- One engine at work on files. -/
structure AtWork (engineOf : κ → Engine τ) (flowOf : Key → Flow) (t : Tree)
    (entry : Key × Registered κ) : Prop where
  writes : Engine.Writes (engineOf entry.2.transcoder).transcoder
  serves : Serves t entry.1.1 entry.1.2 (flowOf entry.1)
  queue : entry.2.state.toEncodeQueue = []

/-- All of them. -/
def AllAtWork (engineOf : κ → Engine τ) (flowOf : Key → Flow) (p : Polling κ τ) : Prop :=
  ∀ entry ∈ p.engines.entries, AtWork engineOf flowOf p.world.fs.tree entry

theorem AtWork.mono {t u : Tree} {entry : Key × Registered κ}
    (h : AtWork engineOf flowOf t entry) (hfills : Fills t u) : AtWork engineOf flowOf u entry :=
  ⟨h.writes, h.serves.mono hfills, h.queue⟩

theorem keys_leave (p : Polling κ τ) (key : Key) (w : World τ) : keys (p.leave key w) = keys p := by
  simp only [keys, Polling.leave, Registry.setState, List.map_map]
  refine List.map_congr_left ?_
  intro entry _
  by_cases hkey : entry.1 = key <;> simp [hkey]

theorem AllAtWork.leave {p : Polling κ τ} (h : AllAtWork engineOf flowOf p) {key : Key} {w : World τ}
    (hfills : Fills p.world.fs.tree w.fs.tree) (hqueue : w.state.toEncodeQueue = []) :
    AllAtWork engineOf flowOf (p.leave key w) := by
  intro entry hentry
  rcases List.mem_map.1 hentry with ⟨old, hold, rfl⟩
  have hmono := (h old hold).mono hfills
  by_cases hkey : old.1 = key
  · rw [if_pos hkey]
    exact ⟨hmono.writes, hmono.serves, hqueue⟩
  · rw [if_neg hkey]
    exact hmono

/-! ## What stretches of polling do to the files -/

/-- From `p` to `p'` the engines went through `rs`, or a part of it when `$do_quit` was set. -/
structure Spreads (rs : List (Loc → Loc → Prop)) (p p' : Polling κ τ) : Prop where
  keys : keys p' = keys p
  looks : p.looks = 0 → p'.looks = 0
  events : ∃ events, p'.world.events = p.world.events ++ events
  fills : Fills p.world.fs.tree p'.world.fs.tree
  quiet : Spread.Closed (Spread.any rs) (filesOf p.world.fs.tree) → Engine.Quiet p.world p'.world
  files : p'.looks ≠ 0 → filesOf p'.world.fs.tree = Spread.round rs (filesOf p.world.fs.tree)
  called : p'.looks ≠ 0 → ¬ Spread.Closed (Spread.any rs) (filesOf p.world.fs.tree) →
    Engine.Called p.world p'.world

theorem filesOf_of_quiet {w w' : World τ} (hfills : Fills w.fs.tree w'.fs.tree)
    (hquiet : Engine.Quiet w w') : filesOf w'.fs.tree = filesOf w.fs.tree :=
  Set.Subset.antisymm (fun loc h => hquiet.noFile loc true h) (fun loc h => hfills.kept loc _ h)

namespace Spreads

variable {rs qs : List (Loc → Loc → Prop)} {p p' p'' : Polling κ τ}

theorem refl (p : Polling κ τ) : Spreads [] p p :=
  ⟨rfl, id, ⟨[], by simp⟩, Fills.refl _, fun _ => Engine.quiet_refl _, fun _ => rfl,
    fun _ hnot => absurd Spread.closed_any_nil hnot⟩

/-- Nothing happens once `$do_quit` is set. -/
theorem of_quit (rs : List (Loc → Loc → Prop)) (hlooks : p.looks = 0) : Spreads rs p p :=
  ⟨rfl, id, ⟨[], by simp⟩, Fills.refl _, fun _ => Engine.quiet_refl _, fun h => absurd hlooks h,
    fun h => absurd hlooks h⟩

/-- A stretch that was not cut off. -/
theorem whole (h : Spreads rs p p') (hlooks : p'.looks ≠ 0) :
    Engine.Spreads rs p.world p'.world :=
  ⟨h.events, h.files hlooks, h.quiet, h.called hlooks⟩

theorem trans (h : Spreads rs p p') (h' : Spreads qs p' p'') : Spreads (rs ++ qs) p p'' := by
  have hbefore : p''.looks ≠ 0 → p'.looks ≠ 0 := fun hlooks hzero => hlooks (h'.looks hzero)
  have hwhole : p''.looks ≠ 0 → Engine.Spreads (rs ++ qs) p.world p''.world := fun hlooks =>
    (h.whole (hbefore hlooks)).trans (h'.whole hlooks)
  refine ⟨h'.keys.trans h.keys, fun hlooks => h'.looks (h.looks hlooks), ?_, h.fills.trans h'.fills,
    ?_, fun hlooks => (hwhole hlooks).files, fun hlooks => (hwhole hlooks).called⟩
  · rcases h.events with ⟨events, heq⟩
    rcases h'.events with ⟨events', heq'⟩
    exact ⟨events ++ events', by rw [heq', heq, List.append_assoc]⟩
  · intro hclosed
    rw [Spread.closed_any_append] at hclosed
    have hquiet := h.quiet hclosed.1
    refine hquiet.trans (h'.quiet ?_)
    rw [filesOf_of_quiet h.fills hquiet]
    exact hclosed.2

end Spreads

/-- One engine of a round. -/
theorem spreads_of_round {p p' : Polling κ τ} {entry : Key × Registered κ}
    (hall : AllAtWork engineOf flowOf p) (hentry : AtWork engineOf flowOf p.world.fs.tree entry)
    (h : round engineOf entry p = .ok () p') :
    Spreads [(flowOf entry.1).Makes] p p' ∧ AllAtWork engineOf flowOf p' := by
  by_cases hlooks : p.looks = 0
  · rw [round_of_quit hlooks] at h
    cases h
    exact ⟨.of_quit _ hlooks, hall⟩
  · have hencode : encode engineOf entry { p with looks := p.looks - 1 } = .ok () p' :=
      (round_of_not_quit hlooks entry).symm.trans h
    unfold encode at hencode
    have hworld : ({ p with looks := p.looks - 1 } : Polling κ τ).worldOf entry.2.state =
        p.worldOf entry.2.state := rfl
    rw [hworld] at hencode
    cases hrun : (engineOf entry.2.transcoder).doEncode entry.1.1 entry.1.2
        (p.worldOf entry.2.state) with
    | error e w => simp [hrun] at hencode
    | ok u w =>
        rw [hrun] at hencode
        cases hencode
        have hqueue : (p.worldOf entry.2.state).state.toEncodeQueue = [] := hentry.queue
        rcases Engine.fills_of_pass hentry.writes (w := p.worldOf entry.2.state) hentry.serves hqueue
          hrun with ⟨hfills, hfiles, hquiet, hcalled⟩
        have hqueue' := Engine.toEncodeQueue_doEncode _ hqueue hrun
        -- quiet or not, the log only grows
        have hevents : ∃ events, w.events = p.world.events ++ events := by
          by_cases hclosed : Spread.Closed (flowOf entry.1).Makes
              (filesOf (p.worldOf entry.2.state).fs.tree)
          · rcases (hquiet hclosed).noCall with ⟨events, heq, _⟩
            exact ⟨events, heq⟩
          · rcases hcalled hclosed with ⟨events, heq, _⟩
            exact ⟨events, heq⟩
        refine ⟨⟨keys_leave _ _ _, fun hzero => absurd hzero hlooks, hevents, hfills, ?_, ?_, ?_⟩, ?_⟩
        · intro hclosed
          have hsame := hquiet (Spread.closed_any_singleton.1 hclosed)
          exact ⟨hsame.noCall, hsame.noFile⟩
        · intro _
          exact hfiles
        · intro _ hopen
          exact hcalled fun hclosed => hopen (Spread.closed_any_singleton.2 hclosed)
        · exact AllAtWork.leave (p := { p with looks := p.looks - 1 }) hall hfills hqueue'

/-- The engines of a round, one after the other. -/
theorem spreads_of_loop (es : List (Key × Registered κ)) :
    ∀ {p p' : Polling κ τ}, AllAtWork engineOf flowOf p →
      (∀ entry ∈ es, AtWork engineOf flowOf p.world.fs.tree entry) →
      es.forM (round engineOf) p = .ok () p' →
      Spreads (makes flowOf (es.map Prod.fst)) p p' ∧ AllAtWork engineOf flowOf p' := by
  induction es with
  | nil =>
      intro p p' hall _ h
      cases h
      exact ⟨.refl p, hall⟩
  | cons entry es ih =>
      intro p p' hall hes h
      rw [Each.forM_cons] at h
      cases hround : round engineOf entry p with
      | error e q => simp [hround] at h
      | ok u q =>
          rw [hround] at h
          rcases spreads_of_round hall (hes entry (by simp)) hround with ⟨hfirst, hall'⟩
          rcases ih hall' (fun x hx => (hes x (by simp [hx])).mono hfirst.fills) h with
            ⟨hrest, hall''⟩
          exact ⟨hfirst.trans hrest, hall''⟩

/-- Any number of rounds. -/
theorem spreads_of_poll (n : Nat) :
    ∀ {p p' : Polling κ τ}, AllAtWork engineOf flowOf p →
      pollDirectoryAndEncode engineOf n p = .ok () p' →
      Spreads (List.replicate n (makes flowOf (keys p))).flatten p p' ∧
        AllAtWork engineOf flowOf p' := by
  induction n with
  | zero =>
      intro p p' hall h
      cases h
      exact ⟨.refl p, hall⟩
  | succ n ih =>
      intro p p' hall h
      by_cases hlooks : p.looks = 0
      · rw [poll_of_quit hlooks] at h
        cases h
        exact ⟨.of_quit _ hlooks, hall⟩
      · rw [poll_succ hlooks] at h
        cases hsweep : sweep engineOf { p with looks := p.looks - 1 } with
        | error e q => simp [hsweep] at h
        | ok u q =>
            rw [hsweep] at h
            rw [sweep_eq] at hsweep
            rcases spreads_of_loop (p := { p with looks := p.looks - 1 }) _ hall hall hsweep with
              ⟨hfirst, hall'⟩
            have hfirst' : Spreads (makes flowOf (keys p)) p q :=
              ⟨hfirst.keys, fun hzero => absurd hzero hlooks, hfirst.events, hfirst.fills,
                hfirst.quiet, hfirst.files, hfirst.called⟩
            -- the nap
            have hnap : Spreads [] q
                (if q.engines.entries.length = 0 then { q with looks := 0 } else q) ∧
                AllAtWork engineOf flowOf
                  (if q.engines.entries.length = 0 then { q with looks := 0 } else q) := by
              split
              · refine ⟨⟨rfl, fun _ => rfl, ⟨[], by simp⟩, Fills.refl _, fun _ => Engine.quiet_refl _,
                  fun hzero => absurd rfl hzero, fun hzero => absurd rfl hzero⟩, hall'⟩
              · exact ⟨.refl q, hall'⟩
            rcases ih hnap.2 h with ⟨hrest, hall''⟩
            have hkeys := (hfirst'.trans hnap.1).keys
            rw [hkeys] at hrest
            have hwhole := (hfirst'.trans hnap.1).trans hrest
            rw [List.append_nil] at hwhole
            exact ⟨hwhole, hall''⟩

/-! ## Rest -/

/-- From the `n`-th round on nothing is converted. -/
def RestsAfter (engineOf : κ → Engine τ) (p : Polling κ τ) (n : Nat) : Prop :=
  ∀ k m p' p'', n ≤ k → pollDirectoryAndEncode engineOf k p = .ok () p' →
    pollDirectoryAndEncode engineOf m p' = .ok () p'' → Engine.Quiet p'.world p''.world

/-- Every round that `$do_quit` does not cut short converts something. -/
def NeverRests (engineOf : κ → Engine τ) (p : Polling κ τ) : Prop :=
  ∀ k p' p'', pollDirectoryAndEncode engineOf k p = .ok () p' →
    pollDirectoryAndEncode engineOf 1 p' = .ok () p'' → p''.looks ≠ 0 →
    Engine.Called p'.world p''.world

/-- What there is at first and all that is made of it. -/
def prospects (flowOf : Key → Flow) (p : Polling κ τ) : Set Loc :=
  Spread.reach (Spread.any (makes flowOf (keys p))) (filesOf p.world.fs.tree)

theorem any_makes_singleton {p : Polling κ τ} {key : Key} (hkey : keys p = [key]) :
    Spread.any (makes flowOf (keys p)) = (flowOf key).Makes := by
  funext a b
  simp [Spread.any, makes, hkey]

/-- There is an end to what can be made if everything is smaller than what it is made of. -/
theorem finite_prospects_of_lt {p : Polling κ τ} (μ : Loc → Nat)
    (hlt : ∀ key ∈ keys p, ∀ a b, (flowOf key).Makes a b → μ b < μ a) :
    (prospects flowOf p).Finite := by
  refine @Spread.finite_reach_of_lt _ _ _ μ (finite_filesOf _) ?_ ?_
  · refine Spread.finite_any ?_
    intro r hr
    rcases List.mem_map.1 hr with ⟨key, _, rfl⟩
    exact (flowOf key).finite_makes
  · rintro a b ⟨r, hr, hab⟩
    rcases List.mem_map.1 hr with ⟨key, hkey, rfl⟩
    exact hlt key hkey a b hab

theorem restsAfter_of_closed {p : Polling κ τ} (hall : AllAtWork engineOf flowOf p) {n : Nat}
    (hclosed : ∀ k, n ≤ k → Spread.Closed (Spread.any (makes flowOf (keys p)))
      ((Spread.round (makes flowOf (keys p)))^[k] (filesOf p.world.fs.tree))) :
    RestsAfter engineOf p n := by
  intro k m p' p'' hk hfirst hmore
  rcases spreads_of_poll k hall hfirst with ⟨hspreads, hall'⟩
  by_cases hlooks : p'.looks = 0
  · rw [poll_of_quit hlooks] at hmore
    cases hmore
    exact Engine.quiet_refl _
  · rcases spreads_of_poll m hall' hmore with ⟨hspreads', _⟩
    rw [hspreads.keys] at hspreads'
    apply hspreads'.quiet
    apply Spread.closed_any_replicate
    rw [hspreads.files hlooks, Spread.round_replicate]
    exact hclosed k hk

end EngineManager

namespace Sample

open Engine

/-- One engine from the working directory to the target, and five looks at `$do_quit`. -/
def serving (target : Str) : EngineManager.Polling Unit Unit where
  engines := (EngineManager.addEngine Registry.empty ".".toList target ()).2
  world := world () tree
  looks := 5

def servingEngine (_ : Unit) : Engine Unit :=
  engine (transcoder 300 true)

theorem atWork_serving {target : Str} (hname : ValidName target) (hdir : DirName target) :
    EngineManager.AllAtWork servingEngine (fun _ => flow target) (serving target) := by
  intro entry hentry
  have hentry' : entry = ((".".toList, target), ⟨(), State.new ".".toList⟩) :=
    List.mem_singleton.1 hentry
  subst hentry'
  exact ⟨writes_transcoder, serves_tree hname hdir, rfl⟩

/-- What `rounds` rounds of the polling loop leave. -/
def polled (p : EngineManager.Polling Unit Unit) (rounds : Nat) : EngineManager.Polling Unit Unit :=
  Each.left (EngineManager.pollDirectoryAndEncode servingEngine rounds p)

theorem poll_polled {p : EngineManager.Polling Unit Unit}
    (h : completes (EngineManager.pollDirectoryAndEncode servingEngine 1 p) = true)
    (h' : completes (EngineManager.pollDirectoryAndEncode servingEngine 2 p) = true) :
    EngineManager.pollDirectoryAndEncode servingEngine 1 (polled p 1) = .ok () (polled p 2) := by
  have hadd := @EngineManager.poll_add Unit Unit servingEngine 1 1 p
  rw [ok_of_completes h] at hadd
  exact hadd.symm.trans (ok_of_completes h')

/-- From `w` to `t`, and from `v` to `w`: it takes two rounds until everything is in `t`. -/
def relay : Registry Unit :=
  (EngineManager.addEngine (EngineManager.addEngine Registry.empty "w".toList "t".toList ()).2
    "v".toList "w".toList ()).2

/-- Both into `t`. -/
def gather : Registry Unit :=
  (EngineManager.addEngine (EngineManager.addEngine Registry.empty "v".toList "t".toList ()).2
    "w".toList "t".toList ()).2

/-- Engines on the shelves, and twenty looks at `$do_quit`. -/
def shelving {τ : Type} (engines : Registry Unit) (s : τ) : EngineManager.Polling Unit τ where
  engines := engines
  world := world s shelves
  looks := 20

def gathering : EngineManager.Polling Unit Unit :=
  shelving gather ()

/-- An engine from one of the shelves with videos to another one. -/
def Shelved (entry : Key × Registered Unit) : Prop :=
  entry.1.1 ∈ ["v".toList, "w".toList] ∧ entry.1.2 ∈ ["w".toList, "t".toList] ∧
    entry.2.state.toEncodeQueue = []

instance (entry : Key × Registered Unit) : Decidable (Shelved entry) :=
  inferInstanceAs (Decidable (_ ∧ _ ∧ _))

theorem Shelved.serves {entry : Key × Registered Unit} (h : Shelved entry) :
    Serves shelves entry.1.1 entry.1.2 (between entry.1) ∧ entry.2.state.toEncodeQueue = [] :=
  ⟨serves_shelves h.1 h.2.1, h.2.2⟩

theorem Shelved.atWork {entry : Key × Registered Unit} (h : Shelved entry) :
    EngineManager.AtWork servingEngine between shelves entry :=
  ⟨writes_transcoder, h.serves.1, h.serves.2⟩

theorem apart_between {key key' : Key} (h : key.2 ≠ key'.1) : (between key).Apart (between key') := by
  constructor
  · intro sub htarget
    exact absurd (List.cons.inj htarget).1 h
  · rintro ⟨sub, hroot⟩
    exact h (List.cons.inj hroot).1

/-- How far it is from a place to `t`. -/
def stops (loc : Loc) : Nat :=
  if loc.head? = some "v".toList then 2 else if loc.head? = some "w".toList then 1 else 0

theorem stops_cons (name : Str) (rest : Loc) : stops (name :: rest) = stops [name] := rfl

theorem finite_relay {τ : Type} (s : τ) :
    (EngineManager.prospects between (shelving relay s)).Finite := by
  refine EngineManager.finite_prospects_of_lt stops ?_
  have hless : ∀ key ∈ relay.entries.map Prod.fst, stops [key.2] < stops [key.1] := by
    decide
  rintro key hkey a b ⟨rel, out, rfl, _, rfl⟩
  have hcons := hless key hkey
  rwa [← stops_cons _ out, ← stops_cons _ rel] at hcons

end Sample

namespace EngineManager

variable {κ τ : Type} {engineOf : κ → Engine τ} {flowOf : Key → Flow}

theorem restsAfter_of_finite {p : Polling κ τ} (hall : AllAtWork engineOf flowOf p)
    (hfinite : (prospects flowOf p).Finite) :
    RestsAfter engineOf p (prospects flowOf p \ filesOf p.world.fs.tree).ncard :=
  restsAfter_of_closed hall fun _ hk => Spread.closed_iterate hfinite hk

theorem neverRests_of_infinite {p : Polling κ τ} (hall : AllAtWork engineOf flowOf p)
    (hinfinite : ¬ (prospects flowOf p).Finite) : NeverRests engineOf p := by
  intro k p' p'' hfirst hmore hlooks
  rcases spreads_of_poll k hall hfirst with ⟨hspreads, hall'⟩
  rcases spreads_of_poll 1 hall' hmore with ⟨hspreads', _⟩
  rw [List.replicate_one, List.flatten_singleton, hspreads.keys] at hspreads'
  apply hspreads'.called hlooks
  -- closed files would be all there is to make, and they are finitely many
  intro hclosed
  apply hinfinite
  refine (finite_filesOf p'.world.fs.tree).subset (Spread.reach_subset ?_ hclosed)
  exact fun loc hloc => hspreads.fills.kept loc _ hloc

end EngineManager

namespace EngineManager

variable {κ τ : Type} {engineOf : κ → Engine τ} {flowOf : Key → Flow}

end EngineManager

namespace EngineManager

variable {κ τ : Type} {engineOf : κ → Engine τ} {flowOf : Key → Flow}

end EngineManager

end Yikes
