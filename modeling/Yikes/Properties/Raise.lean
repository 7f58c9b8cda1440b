import Yikes.Lib.Manager
import Yikes.Properties.Pass

/-!
# Raise — a pass in which a conversion raises

`do_encode` has taken all items off the queue when its loop starts, and nothing in the loop or around
it rescues an exception.  `raise_ends_pass` says what is left of a pass in which an item raises: the
item is not recorded, the items behind it get no turn, and the exception goes through the polling
loop, past the engines that have not had their pass.
-/

namespace Yikes

open Ruby

namespace Engine

variable {τ : Type} (engine : Engine τ)

/-- The directory of the target cannot be made, or the transcoder or the screenshot raises. -/
def Raises (turn : EncodingItem × World τ) : Prop :=
  ∃ e w', engine.turn turn.1 turn.2 = .error e w'

/-- The pass survives the items that raise: every item of the batch gets its turn, each item that
raises is recorded as failed once, and the pass returns. -/
structure Survives (w : World τ) (library target : Str) : Prop where
  attempts : (Each.turns engine.turn (batch w library target) (begun w)).map Prod.fst =
    batch w library target
  records : ∀ turn ∈ Each.turns engine.turn (batch w library target) (begun w),
    Raises engine turn →
      (Each.left (engine.doEncode library target w)).events.count (.failed turn.1) =
        w.events.count (.failed turn.1) + 1
  returns : ∃ w', engine.doEncode library target w = .ok () w'

variable {engine}

/-! ## The pass -/

theorem toEncodeQueue_turns {xs : List EncodingItem} {w : World τ}
    (hqueue : w.state.toEncodeQueue = []) :
    ∀ turn ∈ Each.turns engine.turn xs w, turn.2.state.toEncodeQueue = [] := by
  refine Each.turns_invariant (P := fun v : World τ => v.state.toEncodeQueue = []) ?_ hqueue
  intro item _ v v' hv hturn
  exact toEncodeQueue_turn engine hv hturn

theorem doEncode_of_raise {w : World τ} {library target : Str} {turn : EncodingItem × World τ}
    {e : Fault} {w' : World τ}
    (hturn : turn ∈ Each.turns engine.turn (batch w library target) (begun w))
    (hraise : engine.turn turn.1 turn.2 = .error e w') :
    engine.doEncode library target w = .error e w' ∧
      ∃ front back, batch w library target = front ++ turn.1 :: back ∧
        (Each.turns engine.turn (batch w library target) (begun w)).map Prod.fst =
          front ++ [turn.1] := by
  rcases Each.turns_of_raise hturn hraise with ⟨hrun, front, back, before, hbatch, hturns, hfront⟩
  refine ⟨by rw [doEncode_eq, hrun], front, back, hbatch, ?_⟩
  simp [hturns, hfront]

end Engine

/-! ## The polling loop -/

namespace EngineManager

variable {κ τ : Type} {engineOf : κ → Engine τ}

theorem doQuit_bind {α : Type} (k : Bool → PollM κ τ α) {p : Polling κ τ} (hlooks : p.looks ≠ 0) :
    (doQuit >>= k) p = k false { p with looks := p.looks - 1 } := by
  simp [doQuit, Each.bind_eq, Each.modifyGet_eq, hlooks]

theorem round_of_quit {p : Polling κ τ} (hlooks : p.looks = 0) (entry : Key × Registered κ) :
    round engineOf entry p = .ok () p := by
  simp [round, doQuit, Each.bind_eq, Each.modifyGet_eq, Each.pure_eq, hlooks]

theorem round_of_not_quit {p : Polling κ τ} (hlooks : p.looks ≠ 0) (entry : Key × Registered κ) :
    round engineOf entry p = encode engineOf entry { p with looks := p.looks - 1 } := by
  rw [round, doQuit_bind _ hlooks]
  rfl

theorem sweep_eq (p : Polling κ τ) :
    sweep engineOf p = p.engines.entries.forM (round engineOf) p := rfl

/-- A pass that raises ends the sweep, and the engines behind it get no pass. -/
theorem sweep_of_raise {p q : Polling κ τ} {entry : Key × Registered κ} {e : Fault} {w' : World τ}
    (hround : (entry, q) ∈ Each.turns (round engineOf) p.engines.entries p) (hlooks : q.looks ≠ 0)
    (hraise : (engineOf entry.2.transcoder).doEncode entry.1.1 entry.1.2
      (q.worldOf entry.2.state) = .error e w') :
    sweep engineOf p = .error e ({ q with looks := q.looks - 1 }.leave entry.1 w') ∧
      ∃ front back, p.engines.entries = front ++ entry :: back ∧
        (Each.turns (round engineOf) p.engines.entries p).map Prod.fst = front ++ [entry] := by
  have hencode : round engineOf entry q =
      .error e ({ q with looks := q.looks - 1 }.leave entry.1 w') := by
    have hworld : ({ q with looks := q.looks - 1 } : Polling κ τ).worldOf entry.2.state =
        q.worldOf entry.2.state := rfl
    simp [round, doQuit_bind _ hlooks, encode, hworld, hraise]
  rcases Each.turns_of_raise hround hencode with ⟨hrun, front, back, before, hxs, hturns, hfront⟩
  refine ⟨by rw [sweep_eq, hrun], front, back, hxs, ?_⟩
  simp [hturns, hfront]

theorem poll_of_quit {p : Polling κ τ} (hlooks : p.looks = 0) (rounds : Nat) :
    pollDirectoryAndEncode engineOf rounds p = .ok () p := by
  cases rounds with
  | zero => rfl
  | succ rounds =>
      simp [pollDirectoryAndEncode, doQuit, Each.bind_eq, Each.modifyGet_eq, Each.pure_eq, hlooks]

/-- One round of the polling loop, while `$do_quit` is not set. -/
theorem poll_succ {p : Polling κ τ} (hlooks : p.looks ≠ 0) (rounds : Nat) :
    pollDirectoryAndEncode engineOf (rounds + 1) p =
      match sweep engineOf { p with looks := p.looks - 1 } with
      | .ok _ q =>
          pollDirectoryAndEncode engineOf rounds
            (if q.engines.entries.length = 0 then { q with looks := 0 } else q)
      | .error e q => .error e q := by
  rw [pollDirectoryAndEncode, doQuit_bind _ hlooks]
  cases hsweep : sweep engineOf { p with looks := p.looks - 1 } with
  | ok u q =>
      simp [Each.bind_eq, hsweep, nap, Each.modify_eq]
  | error e q => simp [Each.bind_eq, hsweep]

/-- The rounds of the polling loop come one after the other. -/
theorem poll_add (k m : Nat) :
    ∀ p : Polling κ τ, pollDirectoryAndEncode engineOf (k + m) p =
      match pollDirectoryAndEncode engineOf k p with
      | .ok _ q => pollDirectoryAndEncode engineOf m q
      | .error e q => .error e q := by
  induction k with
  | zero =>
      intro p
      rw [Nat.zero_add]
      rfl
  | succ k ih =>
      intro p
      by_cases hlooks : p.looks = 0
      · simp only [poll_of_quit hlooks]
      · have hsucc : k + 1 + m = k + m + 1 := by omega
        rw [hsucc, poll_succ hlooks, poll_succ hlooks]
        cases sweep engineOf { p with looks := p.looks - 1 } with
        | ok u q => exact ih _
        | error e q => rfl

/-- The rounds of the sweep that the polling loop begins in `p`. -/
def passes (engineOf : κ → Engine τ) (p : Polling κ τ) :
    List ((Key × Registered κ) × Polling κ τ) :=
  Each.turns (round engineOf) p.engines.entries { p with looks := p.looks - 1 }

/-- The polling loop that starts in `p` comes to `entry` in the sweep it begins in `p'` after `rounds`
rounds, and finds `q` there. -/
structure Comes (engineOf : κ → Engine τ) (p p' q : Polling κ τ) (rounds : Nat)
    (entry : Key × Registered κ) : Prop where
  rounds : pollDirectoryAndEncode engineOf rounds p = .ok () p'
  begins : p'.looks ≠ 0
  pass : (entry, q) ∈ passes engineOf p'
  encodes : q.looks ≠ 0

/-- A pass that raises ends the polling loop, and the engines behind it get no pass. -/
theorem poll_of_raise {p p' q : Polling κ τ} {rounds : Nat} {entry : Key × Registered κ}
    (hcomes : Comes engineOf p p' q rounds entry) {e : Fault} {w' : World τ}
    (hraise : (engineOf entry.2.transcoder).doEncode entry.1.1 entry.1.2
      (q.worldOf entry.2.state) = .error e w') (more : Nat) :
    (∃ r, pollDirectoryAndEncode engineOf (rounds + (more + 1)) p = .error e r) ∧
      ∃ front back, p'.engines.entries = front ++ entry :: back ∧
        (passes engineOf p').map Prod.fst = front ++ [entry] := by
  have hpass : (entry, q) ∈ Each.turns (round engineOf) p'.engines.entries
      { p' with looks := p'.looks - 1 } := hcomes.pass
  rcases sweep_of_raise (p := { p' with looks := p'.looks - 1 }) hpass hcomes.encodes hraise with
    ⟨hsweep, front, back, hentries, hpasses⟩
  refine ⟨⟨{ q with looks := q.looks - 1 }.leave entry.1 w', ?_⟩, front, back, hentries, hpasses⟩
  rw [poll_add, hcomes.rounds]
  simp only
  rw [poll_succ hcomes.begins, hsweep]

end EngineManager

namespace Engine

variable {τ : Type}

/-- No pass survives an item that raises.  The exception of the first one ends the pass and the polling
loop; that item is not recorded, and the items behind it get no turn, though they are off the
queue. -/
theorem raise_ends_pass (engine : Engine τ) {w : World τ} {library target : Str}
    (hraise : ∃ turn ∈ Each.turns engine.turn (batch w library target) (begun w),
      Raises engine turn) :
    ¬ Survives engine w library target ∧
      ∃ front item back v e w', batch w library target = front ++ item :: back ∧
        (Each.turns engine.turn (batch w library target) (begun w)).map Prod.fst = front ++ [item] ∧
        engine.turn item v = .error e w' ∧
        engine.doEncode library target w = .error e w' ∧
        w'.state = v.state ∧ w'.state.toEncodeQueue = [] ∧
        (∃ calls, w'.events = v.events ++ calls ∧ ∀ x, .succeeded x ∉ calls ∧ .failed x ∉ calls) ∧
        ∀ {κ : Type} (engineOf : κ → Engine τ) (p p' q : EngineManager.Polling κ τ)
          (rounds more : Nat) (entry : Key × Registered κ),
          EngineManager.Comes engineOf p p' q rounds entry →
          engineOf entry.2.transcoder = engine → entry.1 = (library, target) →
          q.worldOf entry.2.state = w →
          (∃ r, EngineManager.pollDirectoryAndEncode engineOf (rounds + (more + 1)) p =
            .error e r) ∧
          ∃ before behind, p'.engines.entries = before ++ entry :: behind ∧
            (EngineManager.passes engineOf p').map Prod.fst = before ++ [entry] := by
  rcases hraise with ⟨⟨item, v⟩, hturn, e, w', hitem⟩
  rcases doEncode_of_raise hturn hitem with ⟨hrun, front, back, hbatch, hturns⟩
  have hspec := turn_spec engine item v
  rw [hitem] at hspec
  rcases hspec.of_error with ⟨hstate, hcalls⟩
  have hqueue : v.state.toEncodeQueue = [] := toEncodeQueue_turns rfl _ hturn
  refine ⟨?_, front, item, back, v, e, w', hbatch, hturns, hitem, hrun, hstate, ?_, hcalls, ?_⟩
  -- the pass does not return
  · intro hsurvives
    rcases hsurvives.returns with ⟨w'', hok⟩
    rw [hrun] at hok
    cases hok
  · rw [hstate, hqueue]
  -- nor does the polling loop that comes to it
  · intro κ engineOf p p' q rounds more entry hcomes hengine hkey hworld
    have hraise : (engineOf entry.2.transcoder).doEncode entry.1.1 entry.1.2
        (q.worldOf entry.2.state) = .error e w' := by
      rw [hengine, hkey, hworld, hrun]
    exact EngineManager.poll_of_raise hcomes hraise more

end Engine

namespace Sample

open Engine

/-- `a/c.avi` and `b/d.avi` in `v`, and a file `a` in `t`. -/
def blockedTree : Tree :=
  let videos := ((((Tree.empty 8).put [] "v".toList (.dir true)).put ["v".toList] "b".toList
    (.dir true)).put ["v".toList, "b".toList] "d.avi".toList (.file true)).put ["v".toList]
    "a".toList (.dir true)
  ((videos.put ["v".toList, "a".toList] "c.avi".toList (.file true)).put [] "t".toList
    (.dir true)).put ["t".toList] "a".toList (.file true)

theorem error_of_not_completes {α ε σ : Type} {r : EStateM.Result ε σ α}
    (h : completes r = false) : ∃ e s, r = .error e s := by
  cases r with
  | ok a s => cases h
  | error e s => exact ⟨e, s, rfl⟩

/-- The directory `t/a` cannot be made. -/
theorem blockedTree_raises :
    ∃ turn ∈ Each.turns (engine (transcoder 300 true)).turn
      (batch (world () blockedTree) "v".toList "t".toList) (begun (world () blockedTree)),
      Raises (engine (transcoder 300 true)) turn := by
  have hbatch : batch (world () blockedTree) "v".toList "t".toList =
      [.new "v".toList "v/a/c.avi".toList "t".toList,
        .new "v".toList "v/b/d.avi".toList "t".toList] := by
    decide
  have hraise : completes ((engine (transcoder 300 true)).turn
      (.new "v".toList "v/a/c.avi".toList "t".toList) (begun (world () blockedTree))) = false := by
    decide
  rw [hbatch]
  exact ⟨_, List.mem_cons_self, error_of_not_completes hraise⟩

end Sample

theorem raise_ends_pass_sample :
    ¬ Engine.Survives (Sample.engine (Sample.transcoder 300 true))
      (Sample.world () Sample.blockedTree) "v".toList "t".toList :=
  (Engine.raise_ends_pass (Sample.engine (Sample.transcoder 300 true))
    Sample.blockedTree_raises).1

/-- `v/b/d.avi` is due, but is not attempted behind `v/a/c.avi`; nothing is recorded, and the pass
raises. -/
theorem blocked_directory_stops_pass :
    let w := Sample.world () Sample.blockedTree
    let engine := Sample.engine (Sample.transcoder 300 true)
    (∃ turn ∈ Each.turns engine.turn (Engine.batch w "v".toList "t".toList) (Engine.begun w),
        Engine.Raises engine turn) ∧
      Engine.items w.fs.tree "v".toList "t".toList =
        [.new "v".toList "v/a/c.avi".toList "t".toList,
          .new "v".toList "v/b/d.avi".toList "t".toList] ∧
      Engine.shouldEncode w.fs (.new "v".toList "v/b/d.avi".toList "t".toList) = true ∧
      (Each.left (engine.doEncode "v".toList "t".toList w)).events = [] ∧
      ¬ Engine.Survives engine w "v".toList "t".toList := by
  refine ⟨Sample.blockedTree_raises, by decide, by decide, by decide, ?_⟩
  intro hsurvives
  rcases hsurvives.returns with ⟨w', hok⟩
  have hraised : Sample.completes ((Sample.engine (Sample.transcoder 300 true)).doEncode
      "v".toList "t".toList (Sample.world () Sample.blockedTree)) = false := by
    decide
  rw [hok] at hraised
  cases hraised

end Yikes
