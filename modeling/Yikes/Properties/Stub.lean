import Yikes.Properties.Pass

/-!
# Stub — where the two looks at a target disagree

`should_encode?` lets an item through whose target has at most 256 bytes, `Engine#transcode` asks only
whether there is a target and then answers true.  `agrees_iff` says that the two agree on every turn
of a pass exactly if no turn finds such a stub, or a target that appears with its directory.
-/

namespace Yikes

open Ruby

namespace Engine

variable {τ : Type} (engine : Engine τ)

/-- At this turn `transcode` is called if the item is due and its directory can be made, and the item
is recorded as succeeded only if it was called. -/
def Agrees (item : EncodingItem) (w : World τ) : Prop :=
  ∃ calls, (Each.left (engine.turn item w)).events = w.events ++ calls ∧
    (shouldEncode w.fs item = true →
      (∃ t, w.fs.tree.mkdir_p (File.dirname item.targetPath) = .ok t) →
      .transcode item.sourcePath item.targetPath ∈ calls) ∧
    (.succeeded item ∈ calls → .transcode item.sourcePath item.targetPath ∈ calls)

/-- The item is due, but there is something at its target once the directory is made. -/
def Shadowed (item : EncodingItem) (w : World τ) : Prop :=
  shouldEncode w.fs item = true ∧
    ∃ t, w.fs.tree.mkdir_p (File.dirname item.targetPath) = .ok t ∧
      (t.stat item.targetPath).isSome = true

variable {engine} {item : EncodingItem} {w w' : World τ}

theorem not_agrees_of_shadowed (h : Shadowed item w) : ¬ Agrees engine item w := by
  rcases h with ⟨hdue, t, hdir, hthere⟩
  rintro ⟨calls, hcalls, hcalled, _⟩
  have hmem := hcalled hdue ⟨t, hdir⟩
  -- with something at the target the turn makes a screenshot call at most
  rcases noCall_of_present hdir hthere (turn_spec engine item w) with ⟨calls', hcalls', hnone⟩
  rw [hcalls] at hcalls'
  rw [List.append_cancel_left hcalls'] at hmem
  exact hnone _ _ hmem

theorem agrees_of_not_shadowed (h : ¬ Shadowed item w) : Agrees engine item w := by
  have hspec := turn_spec engine item w
  have hcalls : ∀ {t : Tree} {ret : Bool} {v : World τ}, shouldEncode w.fs item = true →
      w.fs.tree.mkdir_p (File.dirname item.targetPath) = .ok t →
      Transcoded engine item (w.setTree t) ret v →
      v.events = w.events ++ [.transcode item.sourcePath item.targetPath] := by
    intro t ret v hdue hdir hrun
    rcases hrun.calls with ⟨_, calls, hevents, ⟨hthere, _⟩ | ⟨_, rfl⟩⟩
    -- `Engine#transcode` saw a target, which is the case that is ruled out
    · exact absurd ⟨hdue, t, hdir, hthere⟩ h
    · exact hevents
  unfold Agrees
  generalize engine.turn item w = r at hspec ⊢
  cases hspec with
  | skipped hskip => exact ⟨[.skipped item], rfl, by simp [hskip], by simp⟩
  | noDirectory hdue hdir => exact ⟨[], by simp [World.setTree], by simp [hdir], by simp⟩
  | raised hdue hdir hfree hrun => exact ⟨_, rfl, by simp, by simp⟩
  | failed hdue hdir hrun =>
      refine ⟨[.transcode item.sourcePath item.targetPath, .failed item], ?_, by simp, by simp⟩
      simp [World.encodeFailed, hcalls hdue hdir hrun]
  | notPreviewed hdue hdir hrun hpreview =>
      rcases hpreview.events with ⟨_, shots, hshots, _⟩
      refine ⟨.transcode item.sourcePath item.targetPath :: shots, ?_, by simp, by simp⟩
      rw [hshots, hcalls hdue hdir hrun, List.append_assoc, List.singleton_append]
  | succeeded hdue hdir hrun hpreview =>
      refine ⟨[.transcode item.sourcePath item.targetPath,
        .screenshot item.sourcePath (engine.previewOf item), .succeeded item], ?_, by simp, by simp⟩
      simp [World.encodeSucceeded, hpreview.of_ok.2, hcalls hdue hdir hrun]

/-- In every pass, on any files and any queue: the two looks at a target agree at every turn if and
only if no turn finds a due item that has something at its target. -/
theorem agrees_iff (engine : Engine τ) (w : World τ) (library target : Str) :
    let turns := Each.turns engine.turn (batch w library target) (begun w)
    engine.doEncode library target w = (batch w library target).forM engine.turn (begun w) ∧
      ((∀ turn ∈ turns, Agrees engine turn.1 turn.2) ↔
        ∀ turn ∈ turns, ¬ Shadowed turn.1 turn.2) := by
  intro turns
  refine ⟨doEncode_eq engine w library target, ?_⟩
  constructor
  · intro hagrees turn hturn hshadowed
    exact not_agrees_of_shadowed hshadowed (hagrees turn hturn)
  · intro hnot turn hturn
    exact agrees_of_not_shadowed (hnot turn hturn)

end Engine

namespace Sample

/-- `a.avi` in `v`, and an empty `a.mp4` in `t`. -/
def stubTree : Tree :=
  ((((Tree.empty 8).put [] "v".toList (.dir true)).put ["v".toList] "a.avi".toList
    (.file true)).put [] "t".toList (.dir true)).put ["t".toList] "a.mp4".toList (.file true)

end Sample

/-- The empty file is due to be converted; the pass records it as succeeded and calls nothing but the
screenshot. -/
theorem stub_not_converted :
    let item := EncodingItem.new "v".toList "v/a.avi".toList "t".toList
    let w := Sample.world () Sample.stubTree
    Engine.shouldEncode w.fs item = true ∧
      (w.fs.tree.mkdir_p (File.dirname item.targetPath)).isOk = true ∧
      (Each.left ((Sample.engine (Sample.transcoder 300 true)).doEncode "v".toList "t".toList
        w)).events =
        [.screenshot item.sourcePath ((Sample.engine (Sample.transcoder 300 true)).previewOf item),
          .succeeded item] := by
  decide +kernel

end Yikes
