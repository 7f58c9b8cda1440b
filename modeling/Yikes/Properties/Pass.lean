import Yikes.Lib.Turn

/-!
# Pass — one outcome for every listed file

`doEncode_eq` takes a pass apart: it is the loop over the items of the queue and of the listing.
`Reachable` are the states an engine can have between passes that completed, with any files, any
transcoder state and any clock at the start of each pass; `one_outcome` is what holds in all of them.
-/

namespace Yikes

open Ruby

namespace Engine

variable {τ : Type} (engine : Engine τ)

/-! ## The loop of a pass -/

/-- The items of a pass: those left in the queue, then those of its own listing. -/
def batch (w : World τ) (library target : Str) : List EncodingItem :=
  w.state.toEncodeQueue ++ items w.fs.tree library target

/-- The world when the loop of a pass starts. -/
def begun (w : World τ) : World τ :=
  { w with state := { w.state with toEncodeQueue := [] } }

theorem doEncode_eq (w : World τ) (library target : Str) :
    engine.doEncode library target w =
      (batch w library target).forM engine.turn (begun w) := by
  have hdequeue : (dequeueItems : EngineM τ (List EncodingItem))
      { w with state := w.state.addToQueue (items w.fs.tree library target) } =
      .ok (batch w library target) (begun w) := by
    simp only [dequeueItems, Each.modifyGet_eq, State.dequeueItems_itemsCount,
      State.toEncodeQueue_addToQueue]
    rfl
  simp only [doEncode, enqueueFilesToEncode, Each.bind_eq, Each.modify_eq, hdequeue]

/-- A pass on an empty queue is the loop over the items of its own listing. -/
theorem doEncode_of_empty {w : World τ} (hqueue : w.state.toEncodeQueue = [])
    (library target : Str) :
    engine.doEncode library target w = (items w.fs.tree library target).forM engine.turn w := by
  have hbegun : begun w = w := by
    rcases w with ⟨fs, settings, tc, ⟨encoded, toEncode, lib, tgt⟩, clock, events⟩
    simp only at hqueue
    simp [begun, hqueue]
  have hbatch : batch w library target = items w.fs.tree library target := by
    simp [batch, hqueue]
  rw [doEncode_eq, hbatch, hbegun]

/-! ## One turn -/

/-- The events of a turn: no call and no record for an item that is skipped; for any other at most one
transcode call, a screenshot call exactly if `Engine#transcode` returned true, and one record. -/
inductive Handled : EncodingItem × World τ → List Event → Prop
  | skipped {item : EncodingItem} {w : World τ} (hthere : w.fs.exist? item.targetPath = true)
      (hsize : 256 < w.fs.size item.targetPath) : Handled (item, w) [.skipped item]
  | converted {item : EncodingItem} {w made w' : World τ} {ret : Bool} {calls : List Event}
      (hdue : shouldEncode w.fs item = true)
      (hdir : mkdir_p (File.dirname item.targetPath) w = .ok () made)
      (hret : engine.transcode item.sourcePath item.targetPath made = .ok ret w')
      (hcalls : calls = [] ∨ calls = [.transcode item.sourcePath item.targetPath]) :
      Handled (item, w) (calls ++
        if ret then [.screenshot item.sourcePath (engine.previewOf item), .succeeded item]
        else [.failed item])

theorem handled_of_turn {item : EncodingItem} {w w' : World τ}
    (h : Turn engine item w (.ok () w')) :
    w'.state.toEncodeQueue = w.state.toEncodeQueue ∧
      ∃ seg, w'.events = w.events ++ seg ∧ Handled engine (item, w) seg := by
  have hmade : ∀ {t : Tree}, w.fs.tree.mkdir_p (File.dirname item.targetPath) = .ok t →
      mkdir_p (File.dirname item.targetPath) w = .ok () (w.setTree t) := by
    intro t hdir
    simp [mkdir_p, hdir]
  -- a target that came with its directory is not transcoded, hence *at most* one call
  have hcalls : ∀ {v v' : World τ} {ret : Bool}, Transcoded engine item v ret v' →
      v'.state = v.state ∧ ∃ calls, v'.events = v.events ++ calls ∧
        (calls = [] ∨ calls = [.transcode item.sourcePath item.targetPath]) := by
    intro v v' ret hrun
    rcases hrun.calls with ⟨hstate, calls, hevents, ⟨_, hnil⟩ | ⟨_, hone⟩⟩
    · exact ⟨hstate, calls, hevents, Or.inl hnil⟩
    · exact ⟨hstate, calls, hevents, Or.inr hone⟩
  cases h with
  | skipped hskip =>
      rcases shouldEncode_eq_false hskip with ⟨hthere, hsize⟩
      exact ⟨rfl, _, rfl, .skipped hthere hsize⟩
  | failed hdue hdir hrun =>
      rcases hcalls hrun with ⟨hstate, calls, hevents, hcalls⟩
      refine ⟨by simp [World.encodeFailed, hstate, World.setTree], calls ++ [.failed item], ?_, ?_⟩
      · simp [World.encodeFailed, hevents, World.setTree]
      · have hconverted := Handled.converted hdue (hmade hdir) hrun.eq hcalls
        simpa using hconverted
  | succeeded hdue hdir hrun hpreview =>
      rcases hcalls hrun with ⟨hstate, calls, hevents, hcalls⟩
      rcases hpreview.of_ok with ⟨hstate', hevents'⟩
      refine ⟨by simp [World.encodeSucceeded, hstate, hstate', World.setTree], calls ++
        [.screenshot item.sourcePath (engine.previewOf item), .succeeded item], ?_, ?_⟩
      · simp [World.encodeSucceeded, hevents, hevents', World.setTree]
      · have hconverted := Handled.converted hdue (hmade hdir) hrun.eq hcalls
        simpa using hconverted

/-! ## Every pass of every run -/

/-- The states of an engine between passes, none of which raised. -/
inductive Reachable : State → Prop
  | new (library : Str) : Reachable (State.new library)
  | pass {w w' : World τ} {library target : Str} (hstate : Reachable w.state)
      (hrun : engine.doEncode library target w = .ok () w') : Reachable w'.state

theorem toEncodeQueue_turn {item : EncodingItem} {w w' : World τ}
    (hqueue : w.state.toEncodeQueue = []) (hturn : engine.turn item w = .ok () w') :
    w'.state.toEncodeQueue = [] := by
  have hspec := turn_spec engine item w
  rw [hturn] at hspec
  exact (handled_of_turn engine hspec).1.trans hqueue

theorem toEncodeQueue_doEncode {w w' : World τ} {library target : Str}
    (hqueue : w.state.toEncodeQueue = []) (hrun : engine.doEncode library target w = .ok () w') :
    w'.state.toEncodeQueue = [] := by
  rw [doEncode_of_empty engine hqueue] at hrun
  refine Each.forM_invariant (P := fun v => v.state.toEncodeQueue = []) ?_ hqueue hrun
  intro item _ v v' hv hturn
  exact toEncodeQueue_turn engine hv hturn

theorem Reachable.toEncodeQueue {s : State} (h : Reachable engine s) : s.toEncodeQueue = [] := by
  induction h with
  | new library => rfl
  | pass _ hrun ih => exact toEncodeQueue_doEncode engine ih hrun

/-- In every completed pass the listed files get one turn each, in the order of the listing, and the
events of the pass are those of the turns. -/
theorem one_outcome {s : State} (hs : Reachable engine s) :
    s.toEncodeQueue = [] ∧
      ∀ (w w' : World τ) (library target : Str), w.state = s →
        engine.doEncode library target w = .ok () w' →
        let turns := Each.turns engine.turn (items w.fs.tree library target) w
        w'.state.toEncodeQueue = [] ∧ turns.map Prod.fst = items w.fs.tree library target ∧
          ∃ segs : List (List Event), w'.events = w.events ++ segs.flatten ∧
            List.Forall₂ (Handled engine) turns segs := by
  have hqueue := hs.toEncodeQueue
  refine ⟨hqueue, ?_⟩
  intro w w' library target hw hrun
  -- the queue was drained by the pass before, so the batch is the listing
  rw [← hw] at hqueue
  refine ⟨toEncodeQueue_doEncode engine hqueue hrun, ?_⟩
  rw [doEncode_of_empty engine hqueue] at hrun
  have hlog : ∀ item (v v' : World τ), engine.turn item v = .ok () v' →
      ∃ seg, v'.events = v.events ++ seg ∧ Handled engine (item, v) seg := by
    intro item v v' hturn
    have hspec := turn_spec engine item v
    rw [hturn] at hspec
    exact (handled_of_turn engine hspec).2
  rcases Each.forM_log hlog hrun with ⟨segs, hevents, hsegs⟩
  exact ⟨Each.turns_of_ok hrun, segs, hevents, hsegs⟩

end Engine

/-! ## A small library -/

namespace Sample

open Engine

/-- `a.avi` in the working directory, which is the root. -/
def tree : Tree :=
  (Tree.empty 8).put [] "a.avi".toList (.file true)

/-- A transcoder that writes `size` bytes to its output and answers `ret`. -/
def transcoder (size : Nat) (ret : Bool) : Transcoder Unit where
  beforeTranscode := pure ()
  transcode := fun _ output s =>
    match s.1.tree.creates output with
    | none => .error (.errno .ENOENT) s
    | some _ => .ok ret (s.1.write output (List.replicate size 0), ())
  getScreenshot := fun _ _ => pure ()

def platform : Platform where
  os := some .linux
  runtime := .mri
  home := some "/home".toList

def engine (tc : Transcoder Unit) : Engine Unit where
  transcoder := tc
  platform := platform
  md5 := id

def world {τ : Type} (s : τ) (t : Tree) : World τ where
  fs := { tree := t, data := fun _ => [] }
  settings := Tree.empty 8
  transcoder := s
  state := State.new ".".toList
  clock := 0
  events := []

/-- Whether a pass ended normally. -/
def completes {α ε σ : Type} : EStateM.Result ε σ α → Bool
  | .ok _ _ => true
  | .error _ _ => false

theorem ok_of_completes {ε σ : Type} {r : EStateM.Result ε σ Unit} (h : completes r = true) :
    r = .ok () (Each.left r) := by
  cases r with
  | ok u s => rfl
  | error e s => cases h

/-- A transcoder that fails for `b.avi`, wherever it is. -/
def picky : Transcoder Unit where
  beforeTranscode := pure ()
  transcode := fun input output =>
    if "/b.avi".toList.isSuffixOf input then pure false
    else (transcoder 300 true).transcode input output
  getScreenshot := fun _ _ => pure ()

/-- The nodes are put into the tree in turn. -/
def puts (t : Tree) (nodes : List (Loc × Str × Node)) : Tree :=
  nodes.foldl (fun t node => t.put node.1 node.2.1 node.2.2) t

/-- Three videos in `v`, the first of which has its output in `t`. -/
def shelfWorld : World Unit :=
  let w := world () (puts (Tree.empty 8)
    [([], "v".toList, .dir true), ([], "t".toList, .dir true),
      (["v".toList], "a.avi".toList, .file true), (["v".toList], "b.avi".toList, .file true),
      (["v".toList], "c.avi".toList, .file true)])
  { w with fs := w.fs.write "t/a.mp4".toList (List.replicate 300 0) }

def shelfPass (w : World Unit) : EStateM.Result Fault (World Unit) Unit :=
  (engine picky).doEncode "v".toList "t".toList w

/-- One more video in `v`. -/
def shelve (w : World Unit) : World Unit :=
  w.setTree (w.fs.tree.put ["v".toList] "d.avi".toList (.file true))

theorem state_shelve (w : World Unit) : (shelve w).state = w.state := rfl

/-- After a pass in which `a.avi` is skipped, `b.avi` fails and `c.avi` is converted. -/
def shelfLater : World Unit :=
  shelve (Each.left (shelfPass shelfWorld))

def shelfItem (name : String) : EncodingItem :=
  EncodingItem.new "v".toList ("v/".toList ++ name.toList) "t".toList

end Sample

theorem one_outcome_sample :
    ∃ w' segs, Sample.shelfPass Sample.shelfLater = .ok () w' ∧ w'.state.toEncodeQueue = [] ∧
      w'.events = Sample.shelfLater.events ++ segs.flatten ∧
      List.Forall₂ (Engine.Handled (Sample.engine Sample.picky))
        (Each.turns (Sample.engine Sample.picky).turn
          (["d.avi", "c.avi", "b.avi", "a.avi"].map Sample.shelfItem) Sample.shelfLater) segs ∧
      segs.flatten = [.transcode "v/d.avi".toList "t/d.mp4".toList,
        .screenshot "v/d.avi".toList
          ((Sample.engine Sample.picky).previewOf (Sample.shelfItem "d.avi")),
        .succeeded (Sample.shelfItem "d.avi"), .skipped (Sample.shelfItem "c.avi"),
        .transcode "v/b.avi".toList "t/b.mp4".toList, .failed (Sample.shelfItem "b.avi"),
        .skipped (Sample.shelfItem "a.avi")] := by
  have hfirst : Sample.completes (Sample.shelfPass Sample.shelfWorld) = true := by
    decide +kernel
  have hsecond : Sample.completes (Sample.shelfPass Sample.shelfLater) = true := by
    decide +kernel
  have hitems : Engine.items Sample.shelfLater.fs.tree "v".toList "t".toList =
      ["d.avi", "c.avi", "b.avi", "a.avi"].map Sample.shelfItem := by
    decide +kernel
  have hnew : Engine.Reachable (Sample.engine Sample.picky) Sample.shelfWorld.state :=
    .new ".".toList
  have hstate : Engine.Reachable (Sample.engine Sample.picky) Sample.shelfLater.state := by
    rw [Sample.shelfLater, Sample.state_shelve]
    exact hnew.pass (Sample.ok_of_completes hfirst)
  have hrun := Sample.ok_of_completes hsecond
  rcases (Engine.one_outcome (Sample.engine Sample.picky) hstate).2 Sample.shelfLater
    (Each.left (Sample.shelfPass Sample.shelfLater)) "v".toList "t".toList rfl hrun with
    ⟨hqueue, -, segs, hevents, hsegs⟩
  rw [hitems] at hsegs
  refine ⟨_, segs, hrun, hqueue, hevents, hsegs, List.append_cancel_left (hevents.symm.trans ?_)⟩
  decide +kernel

end Yikes
