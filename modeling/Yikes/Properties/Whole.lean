import Yikes.Properties.Direct
import Yikes.Properties.Plain

/-!
# Whole — runs in the foreground, down to ffmpeg

From the command line to the argument vectors of ffmpeg: when the names on the way to the two
directories are plain, and those of the files in view, a start of the program through the shell is the
start in which ffmpeg is executed directly (`run_executed`).  So the program does to the files what its
flows do (`runs_executed`).
-/

namespace Yikes

open Ruby Posix
open Ruby.OptionParser (Written)

theorem quotedLiteral_text {loc : Loc} (h : ∀ name ∈ loc, Shell.QuotedLiteral name) :
    Shell.QuotedLiteral (Loc.text loc) := by
  have hnames : ∀ {names : List Str}, (∀ name ∈ names, Shell.QuotedLiteral name) →
      Shell.QuotedLiteral (names.flatMap fun name => '/' :: name) := by
    intro names
    induction names with
    | nil => exact fun _ => trivial
    | cons name names ih =>
        intro hall
        have hrest := ih fun x hx => hall x (by simp [hx])
        have hname := quotedLiteral_sep (hall name (by simp))
        rw [List.flatMap_cons]
        refine hname.append hrest fun _ => ?_
        cases names <;> rfl
  rw [Loc.text]
  split
  · decide
  · exact hnames h

namespace Start

variable {κ σ : Type} {yaml : Yaml κ} {platform : Platform} {libDir : Str} {exec : Program σ}
  {md5 : Str → Str} {odd : Value κ → World (Outside σ) → Value κ × World (Outside σ)}
  {transcoder : κ}

open EngineManager (shellOf executedOf)

/-- The two directories of a flow have plain names, and so have the files below the library. -/
structure PlainFlow (flow : Flow) (files : Set Loc) : Prop where
  root : ∀ name ∈ flow.root, Shell.QuotedLiteral name
  target : ∀ name ∈ flow.target, Shell.QuotedLiteral name
  below : PlainBelow flow.root files

variable (hpaths : Engine.PlainPaths platform libDir md5) (other : System σ)

include hpaths

theorem run_executed {start : Start} {written : List (Written Opt)} {flow : Flow}
    {home : Home (Outside σ)} (hasks : Asks home.world.fs.tree start written flow)
    (hplain : PlainFlow flow (filesOf home.world.fs.tree)) :
    start.run yaml platform (shellOf platform libDir exec other md5) odd transcoder home =
      start.run yaml platform (executedOf platform libDir exec md5) odd transcoder home := by
  rcases hasks.parse .ERROR with ⟨p, hparse, hbackground, hlibrary, htarget⟩
  have htree : (home.chdir start.cwd).world.fs.tree = home.world.fs.tree.chdir start.cwd := rfl
  -- the options come to the real paths, and the run to a pass on them
  have hforeground : foreground (shellOf platform libDir exec other md5) transcoder p.results
        (home.chdir start.cwd) =
      foreground (executedOf platform libDir exec md5) transcoder p.results (home.chdir start.cwd) := by
    have hserves := hasks.serves
    have hbelow : PlainBelow flow.root (filesOf (home.world.fs.tree.chdir start.cwd)) := by
      rw [filesOf_chdir]
      exact hplain.below
    rw [← hlibrary, ← htarget] at hserves
    have hitems := Engine.plain_items hpaths hserves
      (by rw [hlibrary]; exact quotedLiteral_text hplain.root)
      (by rw [htarget]; exact quotedLiteral_text hplain.target) hbelow
    have hpass : (shellOf platform libDir exec other md5 transcoder).doEncode p.results.library
          p.results.target { (home.chdir start.cwd).world with state := State.new p.results.library } =
        (executedOf platform libDir exec md5 transcoder).doEncode p.results.library
          p.results.target { (home.chdir start.cwd).world with state := State.new p.results.library } :=
      Engine.doEncode_executed
        (w := { (home.chdir start.cwd).world with state := State.new p.results.library }) hitems other
    rw [foreground, foreground]
    dsimp only
    rw [hpass]
  simp only [run, htree, hparse, hbackground, Bool.false_eq_true, if_false, hforeground]

variable {writtenOf : Start → List (Written Opt)} {flowOf : Start → Flow}

/-- What the starts ask for, and that they see plain names only. -/
def AllPlain (writtenOf : Start → List (Written Opt)) (flowOf : Start → Flow) (starts : List Start)
    (home : Home (Outside σ)) : Prop :=
  ∀ start ∈ starts, Asks home.world.fs.tree start (writtenOf start) (flowOf start) ∧
    PlainFlow (flowOf start) (filesOf home.world.fs.tree)

omit hpaths in
/-- A start keeps the names plain for all of them. -/
theorem AllPlain.run {starts : List Start} {home home' : Home (Outside σ)} {ret : Bool}
    (hencodes : Engine.Encodes libDir exec) (h : AllPlain writtenOf flowOf starts home) {start : Start}
    (hstart : start ∈ starts)
    (hrun : start.run yaml platform (executedOf platform libDir exec md5) odd transcoder home =
      .ok ret home') : AllPlain writtenOf flowOf starts home' := by
  have hwrites : Engine.Writes (executedOf platform libDir exec md5 transcoder).transcoder :=
    Engine.writes_executed hencodes
  rcases spreads_of_run hwrites (h start hstart).1 hrun with ⟨hfills, hspreads⟩
  have hfiles : filesOf home'.world.fs.tree =
      Spread.spread (flowOf start).Makes (filesOf home.world.fs.tree) := hspreads.files
  intro later hlater
  rcases h later hlater with ⟨hasks, hplain⟩
  refine ⟨hasks.mono hfills, hplain.root, hplain.target, ?_⟩
  rw [hfiles]
  refine hplain.below.spread (h start hstart).2.below ?_
  intro sub htarget name hname
  exact (h start hstart).2.target name (by simp [htarget, hname])

theorem runAll_executed (hencodes : Engine.Encodes libDir exec) {starts : List Start}
    {home : Home (Outside σ)} (h : AllPlain writtenOf flowOf starts home) :
    runAll yaml platform (shellOf platform libDir exec other md5) odd transcoder starts home =
        runAll yaml platform (executedOf platform libDir exec md5) odd transcoder starts home ∧
      ∀ home', runAll yaml platform (executedOf platform libDir exec md5) odd transcoder starts home =
        .ok () home' → AllPlain writtenOf flowOf starts home' := by
  have hstep : ∀ start ∈ starts, ∀ home₁ home₂ : Home (Outside σ),
      AllPlain writtenOf flowOf starts home₁ →
      (do let _ ← start.run yaml platform (executedOf platform libDir exec md5) odd transcoder :
        EStateM Raised (Home (Outside σ)) Unit) home₁ = .ok () home₂ →
      AllPlain writtenOf flowOf starts home₂ := by
    intro start hstart home₁ home₂ hplain hrun
    rw [Each.bind_eq] at hrun
    cases hfirst : start.run yaml platform (executedOf platform libDir exec md5) odd transcoder home₁ with
    | error e home₃ => simp [hfirst] at hrun
    | ok ret home₃ =>
        rw [hfirst] at hrun
        cases hrun
        exact hplain.run hencodes hstart hfirst
  have hsame : ∀ start ∈ starts, ∀ home₁ : Home (Outside σ), AllPlain writtenOf flowOf starts home₁ →
      (do let _ ← start.run yaml platform (shellOf platform libDir exec other md5) odd transcoder :
        EStateM Raised (Home (Outside σ)) Unit) home₁ =
      (do let _ ← start.run yaml platform (executedOf platform libDir exec md5) odd transcoder :
        EStateM Raised (Home (Outside σ)) Unit) home₁ := by
    intro start hstart home₁ hplain
    rcases hplain start hstart with ⟨hasks, hflow⟩
    rw [Each.bind_eq, Each.bind_eq, run_executed hpaths other hasks hflow]
  exact ⟨Each.forM_congr hstep hsame h, fun _ hrun => Each.forM_invariant hstep h hrun⟩

end Start

namespace Sample

theorem file_aliasTree {loc : Loc} (h : aliasTree.node? loc = some (.file true)) :
    loc = ["v".toList, "a.avi".toList] := by
  rcases Tree.of_node_put h with h | ⟨_, hlink⟩
  · rcases Tree.of_node_put h with h | ⟨_, hdir⟩
    · rcases Tree.of_node_put h with h | ⟨hplace, _⟩
      · rcases Tree.of_node_put h with h | ⟨_, hdir⟩
        · by_cases hne : loc = []
          · simp [Tree.node?, hne] at h
          · simp [Tree.node?, hne, Tree.empty] at h
        · cases hdir
      · exact hplace
    · cases hdir
  · cases hlink

theorem plainFlow_alias : Start.PlainFlow aliasFlow (filesOf aliasTree) where
  root := by decide
  target := by decide
  below := by
    intro rel hrel
    have hplace : "v".toList :: rel = "v".toList :: ["a.avi".toList] := file_aliasTree hrel
    rw [(List.cons.inj hplace).2]
    decide

def aliasHome : Home (Outside Unit) where
  world := world { environ := fun _ => none, rest := () } aliasTree
  data := fun _ => []

/-- A run with `-l l -t t`, through the shell. -/
def shelledRun : EStateM.Result Raised (Home (Outside Unit)) Unit :=
  Start.runAll plainYaml platform (EngineManager.shellOf platform installed encoder idle label)
    Prod.mk () [aliasStart] aliasHome

end Sample

end Yikes
