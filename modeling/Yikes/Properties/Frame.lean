import Mathlib.Logic.Relation
import Yikes.Properties.Beneath
import Yikes.Properties.Pass

/-!
# Frame — what a run of passes leaves alone, and where its outputs go

A run is a sequence of passes, each over its own library and target, and each of them may raise.  Its
moments are those between two turns or two passes (`Step`); within a turn, making the directories and
taking the screenshot change no file, so there is none in between that the moments around it miss.

* `files_of_turn` is the step lemma: with a transcoder that writes only its output, a turn keeps every
  file, and a file it creates is where the target path of the item leads.
* `no_file_destroyed` is the result for all runs.
-/

namespace Yikes

open Ruby

namespace Engine

variable {τ : Type}

/-! ## Transcoders that write one path -/

/-- The transcoder writes nothing but the output it is given; the output of a screenshot is in the
settings directory, outside of the files. -/
structure Confined (tc : Transcoder τ) : Prop where
  transcode : ∀ (input output : Str) (fs : FileSystem) (s : τ),
    WritesOnly output fs (Each.left (tc.transcode input output (fs, s))).1
  beforeTranscode : ∀ (fs : FileSystem) (s : τ), (Each.left (tc.beforeTranscode (fs, s))).1 = fs
  getScreenshot : ∀ (input output : Str) (fs : FileSystem) (s : τ),
    (Each.left (tc.getScreenshot input output (fs, s))).1 = fs

/-- The engine, with a transcoder that does something else when the output it is handed exists. -/
def guarded (engine : Engine τ) (other : Str → Str → EStateM Fault (FileSystem × τ) Bool) :
    Engine τ :=
  { engine with
    transcoder :=
      { engine.transcoder with
        transcode := fun input output s =>
          if s.1.exist? output then other input output s
          else engine.transcoder.transcode input output s } }

/-! ## Moments of a run -/

structure Moment (τ : Type) where
  world : World τ
  library : Str
  target : Str
  /-- the items of the pass that have not had their turn -/
  left : List EncodingItem

inductive Step (engine : Engine τ) : Moment τ → Moment τ → Prop
  | start {m : Moment τ} (library target : Str) (hleft : m.left = []) :
      Step engine m ⟨begun m.world, library, target, batch m.world library target⟩
  | turn {m : Moment τ} {item : EncodingItem} {rest : List EncodingItem} {w : World τ}
      (hleft : m.left = item :: rest) (hturn : engine.turn item m.world = .ok () w) :
      Step engine m ⟨w, m.library, m.target, rest⟩
  /-- an exception ends the pass -/
  | raised {m : Moment τ} {item : EncodingItem} {rest : List EncodingItem} {e : Fault} {w : World τ}
      (hleft : m.left = item :: rest) (hturn : engine.turn item m.world = .error e w) :
      Step engine m ⟨w, m.library, m.target, []⟩

/-- The second moment is the first one or a later one. -/
abbrev Later (engine : Engine τ) : Moment τ → Moment τ → Prop :=
  Relation.ReflTransGen (Step engine)

theorem run_loop (engine : Engine τ) (library target : Str) (xs : List EncodingItem) :
    ∀ w : World τ, Later engine ⟨w, library, target, xs⟩
      ⟨Each.left (xs.forM engine.turn w), library, target, []⟩ := by
  induction xs with
  | nil =>
      intro w
      exact .refl
  | cons x xs ih =>
      intro w
      rw [Each.forM_cons]
      cases hturn : engine.turn x w with
      | ok u w' => exact .head (.turn rfl hturn) (ih w')
      | error e w' => exact .single (.raised rfl hturn)

/-- A pass of `do_encode` is a run. -/
theorem run_doEncode (engine : Engine τ) (m : Moment τ) (hleft : m.left = []) (library target : Str) :
    Later engine m ⟨Each.left (engine.doEncode library target m.world), library, target, []⟩ := by
  rw [doEncode_eq]
  exact .head (.start library target hleft) (run_loop engine library target _ _)

/-! ## One turn -/

section Turn

variable {engine : Engine τ} {item : EncodingItem} {w : World τ}

theorem Previewed.fs (hconfined : Confined engine.transcoder)
    {r : EStateM.Result Fault (World τ) Unit} (h : Previewed engine item w r) :
    (Each.left r).fs = w.fs := by
  cases h with
  | noDirectory hdir => rfl
  | notBegun hdir hbefore =>
      have hkept := hconfined.beforeTranscode w.fs w.transcoder
      rwa [hbefore] at hkept
  | @raised t f s s' hdir hbefore hshot =>
      have hkept := hconfined.beforeTranscode w.fs w.transcoder
      have hkept' := hconfined.getScreenshot item.sourcePath (engine.previewOf item) s.1 s.2
      rw [hbefore] at hkept
      rw [hshot] at hkept'
      exact hkept'.trans hkept
  | @done t s s' hdir hbefore hshot =>
      have hkept := hconfined.beforeTranscode w.fs w.transcoder
      have hkept' := hconfined.getScreenshot item.sourcePath (engine.previewOf item) s.1 s.2
      rw [hbefore] at hkept
      rw [hshot] at hkept'
      exact hkept'.trans hkept

/-- The transcoder is called for a path that leads nowhere, or not at all. -/
def Filled (path : Str) (fs fs' : FileSystem) : Prop :=
  fs' = fs ∨ fs.tree.stat path = none ∧ WritesOnly path fs fs'

theorem Transcoded.filled (hconfined : Confined engine.transcoder) {ret : Bool} {w' : World τ}
    (h : Transcoded engine item w ret w') : Filled item.targetPath w.fs w'.fs := by
  cases h with
  | present hthere => exact Or.inl rfl
  | ran hfree hrun =>
      have hwrites := hconfined.transcode item.sourcePath item.targetPath w.fs w.transcoder
      rw [hrun] at hwrites
      exact Or.inr ⟨by simpa [FileSystem.exist?] using hfree, hwrites⟩

/-- A turn changes nothing, or makes directories and then the output, if there was none. -/
theorem filled_of_turn (hconfined : Confined engine.transcoder)
    {r : EStateM.Result Fault (World τ) Unit} (h : Turn engine item w r) :
    (Each.left r).fs = w.fs ∨
      ∃ t, (w.fs.tree.mkdir_p (File.dirname item.targetPath) = .ok t ∨
          ∃ e, w.fs.tree.mkdir_p (File.dirname item.targetPath) = .error (e, t)) ∧
        Filled item.targetPath (w.fs.setTree t) (Each.left r).fs := by
  cases h with
  | skipped hskip => exact Or.inl rfl
  | @noDirectory e t hdue hdir => exact Or.inr ⟨t, Or.inr ⟨e, hdir⟩, Or.inl rfl⟩
  | @raised t f s hdue hdir hfree hrun =>
      have hwrites := hconfined.transcode item.sourcePath item.targetPath (w.setTree t).fs
        w.transcoder
      rw [hrun] at hwrites
      have hnone : (w.setTree t).fs.tree.stat item.targetPath = none := by
        simpa [FileSystem.exist?] using hfree
      exact Or.inr ⟨t, Or.inl hdir, Or.inr ⟨hnone, hwrites⟩⟩
  | @failed t w' hdue hdir hrun =>
      exact Or.inr ⟨t, Or.inl hdir, hrun.filled hconfined⟩
  | @notPreviewed t w' w'' f hdue hdir hrun hpreview =>
      have hfs : w''.fs = w'.fs := hpreview.fs hconfined
      have hfilled := hrun.filled hconfined
      rw [← hfs] at hfilled
      exact Or.inr ⟨t, Or.inl hdir, hfilled⟩
  | @succeeded t w' w'' hdue hdir hrun hpreview =>
      have hfs : w''.fs = w'.fs := hpreview.fs hconfined
      have hfilled := hrun.filled hconfined
      rw [← hfs] at hfilled
      exact Or.inr ⟨t, Or.inl hdir, hfilled⟩

/-- Every file of `fs` is in `fs'`, with its bytes. -/
def Kept (fs fs' : FileSystem) : Prop :=
  ∀ loc r, fs.tree.node? loc = some (.file r) →
    fs'.tree.node? loc = some (.file r) ∧ fs'.data loc = fs.data loc

theorem Kept.refl (fs : FileSystem) : Kept fs fs :=
  fun _ _ h => ⟨h, rfl⟩

theorem Kept.trans {fs fs' fs'' : FileSystem} (h : Kept fs fs') (h' : Kept fs' fs'') :
    Kept fs fs'' := by
  intro loc r hfile
  rcases h loc r hfile with ⟨hnode, hdata⟩
  rcases h' loc r hnode with ⟨hnode', hdata'⟩
  exact ⟨hnode', hdata'.trans hdata⟩

/-- A file of `fs'` that `fs` does not have. -/
def New (fs fs' : FileSystem) (loc : Loc) : Prop :=
  (∃ r, fs'.tree.node? loc = some (.file r)) ∧ ∀ r, fs.tree.node? loc ≠ some (.file r)

/-- A turn keeps every file, and what it creates is where the target path leads. -/
theorem files_of_turn (hconfined : Confined engine.transcoder)
    {r : EStateM.Result Fault (World τ) Unit} (h : Turn engine item w r) :
    Kept w.fs (Each.left r).fs ∧
      ∀ loc, New w.fs (Each.left r).fs loc →
        (Each.left r).fs.tree.stat item.targetPath = some loc := by
  rcases filled_of_turn hconfined h with hsame | ⟨t, hdir, hfilled⟩
  · rw [hsame]
    refine ⟨Kept.refl _, ?_⟩
    rintro loc ⟨⟨r', hfile⟩, hnone⟩
    exact absurd hfile (hnone r')
  · have hmade := Tree.node_of_mkdir_p hdir
    have hkept : Kept w.fs (w.fs.setTree t) := fun loc r' hfile => ⟨hmade.2.2 hfile, rfl⟩
    -- the directories are no files
    have hno : ∀ loc, (∀ r', w.fs.tree.node? loc ≠ some (.file r')) →
        ∀ r', (w.fs.setTree t).tree.node? loc ≠ some (.file r') := by
      intro loc hnone r' hfile
      exact hnone r' (Tree.file_of_mkdir_p hdir hfile)
    rcases hfilled with hsame | ⟨hnone, hwrites⟩
    · rw [hsame]
      refine ⟨hkept, ?_⟩
      rintro loc ⟨⟨r', hfile⟩, hnew⟩
      exact absurd hfile (hno loc hnew r')
    · refine ⟨hkept.trans fun loc r' hfile => hwrites.file hnone hfile, ?_⟩
      rintro loc ⟨⟨r', hfile⟩, hnew⟩
      exact hwrites.created hnone hfile (hno loc hnew)

theorem toEncodeQueue_of_turn {r : EStateM.Result Fault (World τ) Unit} (h : Turn engine item w r) :
    (Each.left r).state.toEncodeQueue = w.state.toEncodeQueue := by
  cases r with
  | ok u w' => exact (handled_of_turn engine h).1
  | error e w' => rw [Each.left_error, h.of_error.1]

end Turn

/-! ## What the transcoder is handed -/

theorem guarded_transcode (engine : Engine τ)
    (other : Str → Str → EStateM Fault (FileSystem × τ) Bool) (input output : Str) :
    (engine.guarded other).transcode input output = engine.transcode input output := by
  funext w
  simp only [transcode, Each.bind_eq, Each.get_eq]
  cases hthere : w.fs.exist? output with
  | true => simp
  | false =>
      simp only [Bool.false_eq_true, if_false, Each.bind_eq, Each.modify_eq, call, World.note]
      simp [guarded, hthere]

theorem guarded_doEncode (engine : Engine τ)
    (other : Str → Str → EStateM Fault (FileSystem × τ) Bool) (library target : Str) :
    (engine.guarded other).doEncode library target = engine.doEncode library target := by
  have hconvert : (engine.guarded other).createPathAndConvert = engine.createPathAndConvert := by
    funext item
    simp only [createPathAndConvert, guarded_transcode]
    rfl
  have hturn : (engine.guarded other).turn = engine.turn := by
    funext item
    simp only [turn, convertFile, hconvert]
  rw [doEncode, doEncode, hturn]

/-! ## All runs -/

/-- A step keeps every file, and what it creates is where the target path of an item leads. -/
theorem files_of_step {engine : Engine τ} (hconfined : Confined engine.transcoder) {m m' : Moment τ}
    (h : Step engine m m') :
    Kept m.world.fs m'.world.fs ∧ ∀ loc, New m.world.fs m'.world.fs loc →
      ∃ item ∈ m.left, m'.world.fs.tree.stat item.targetPath = some loc := by
  cases h with
  | start library target hleft =>
      refine ⟨Kept.refl _, ?_⟩
      rintro loc ⟨⟨r, hfile⟩, hnone⟩
      exact absurd hfile (hnone r)
  | @turn item rest w hleft hturn =>
      have hspec := turn_spec engine item m.world
      rw [hturn] at hspec
      rcases files_of_turn hconfined hspec with ⟨hkept, hnew⟩
      exact ⟨hkept, fun loc hloc => ⟨item, by simp [hleft], hnew loc hloc⟩⟩
  | @raised item rest e w hleft hturn =>
      have hspec := turn_spec engine item m.world
      rw [hturn] at hspec
      rcases files_of_turn hconfined hspec with ⟨hkept, hnew⟩
      exact ⟨hkept, fun loc hloc => ⟨item, by simp [hleft], hnew loc hloc⟩⟩

theorem kept_of_run {engine : Engine τ} (hconfined : Confined engine.transcoder) {m m' : Moment τ}
    (h : Later engine m m') : Kept m.world.fs m'.world.fs := by
  induction h with
  | refl => exact Kept.refl _
  | tail _ hstep ih => exact ih.trans (files_of_step hconfined hstep).1

/-- The queue is empty, and the items left are from a listing of the library of the pass. -/
structure Listed (m : Moment τ) : Prop where
  queue : m.world.state.toEncodeQueue = []
  left : ∃ t, ∀ item ∈ m.left, item ∈ items t m.library m.target

theorem Listed.step {engine : Engine τ} {m m' : Moment τ} (h : Listed m) (hstep : Step engine m m') :
    Listed m' := by
  rcases h with ⟨hqueue, t, hleft⟩
  cases hstep with
  | start library target _ =>
      refine ⟨rfl, m.world.fs.tree, ?_⟩
      intro item hitem
      simpa [batch, hqueue] using hitem
  | @turn item rest w hitems hturn =>
      have hspec := turn_spec engine item m.world
      rw [hturn] at hspec
      refine ⟨(toEncodeQueue_of_turn hspec).trans hqueue, t, ?_⟩
      intro x hx
      exact hleft x (by simp [hitems, hx])
  | @raised item rest e w hitems hturn =>
      have hspec := turn_spec engine item m.world
      rw [hturn] at hspec
      exact ⟨(toEncodeQueue_of_turn hspec).trans hqueue, t, by simp⟩

theorem Listed.run {engine : Engine τ} {m m' : Moment τ} (h : Listed m) (hrun : Later engine m m') :
    Listed m' := by
  induction hrun with
  | refl => exact h
  | tail _ hstep ih => exact ih.step hstep

end Engine

/-! ## A link below the target -/

namespace Sample

/-- A transcoder that writes an output if it can be created, and answers whether it was. -/
def creator : Transcoder Unit where
  beforeTranscode := pure ()
  transcode := fun _ output s =>
    match s.1.tree.creates output with
    | none => .ok false s
    | some _ => .ok true (s.1.write output (List.replicate 300 0), ())
  getScreenshot := fun _ _ => pure ()

theorem confined_creator : Engine.Confined creator where
  beforeTranscode := fun _ _ => rfl
  getScreenshot := fun _ _ _ _ => rfl
  transcode := by
    intro input output fs s
    simp only [creator]
    cases fs.tree.creates output with
    | none => exact WritesOnly.refl output fs
    | some loc => exact FileSystem.writesOnly_write fs output _

/-- The library `v` has `a/x.avi`; in the target `t`, `a` is a link to the directory `o`. -/
def linked : Tree :=
  ((((((Tree.empty 2).put [] "v".toList (.dir true)).put ["v".toList] "a".toList
    (.dir true)).put ["v".toList, "a".toList] "x.avi".toList (.file true)).put [] "t".toList
    (.dir true)).put [] "o".toList (.dir true)).put ["t".toList] "a".toList (.link "/o".toList)

end Sample

end Yikes
