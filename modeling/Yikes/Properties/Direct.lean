import Yikes.Lib.Session
import Yikes.Properties.Parse
import Yikes.Properties.Rest
import Yikes.Ruby.Kept

/-!
# Direct — runs in the foreground, from the command line to the files

A command line that gives both directories asks for the flow between their real paths, in whatever form
it is written (`Asks`).  As the real paths are what is scanned and written, links on the way to the
directories do not matter.

Every run that comes to its end spreads the files by what its flow makes, and it calls the transcoder if
and only if an output was missing (`spreads_of_run`).  So starting the program several times does to the
files what the flows do, one after the other (`spread_of_runs`).
-/

namespace Yikes

open Ruby
open Ruby.OptionParser (Written)

/-- The options give two directories, and ask for nothing that ends `parse` or for the background. -/
structure Asks (t : Tree) (start : Start) (written : List (Written Opt)) (flow : Flow) : Prop where
  args : start.args = written.flatMap Written.arguments
  fits : ∀ w ∈ written, w.Fits Main.switches
  cwd : t.isDir start.cwd = true
  runs : ∀ f ∈ written.flatMap Written.found,
    Main.Runs (t.chdir start.cwd) f ∧ f.option ≠ .background ∧ f.option ≠ .rate
  library : ∃ x, Main.lastOf .library (written.flatMap Written.found) = some x ∧
    (t.chdir start.cwd).realpath x = .ok flow.root
  target : ∃ x, Main.lastOf .target (written.flatMap Written.found) = some x ∧
    (t.chdir start.cwd).realpath x = .ok flow.target
  plain : Glob.Plain (Loc.text flow.root)
  isDir : t.isDir flow.root = true
  names : ∀ name ∈ flow.target, DirName name
  scanned : Ordinary t flow.root
  filled : Ordinary t flow.target

theorem filesOf_chdir (t : Tree) (cwd : Loc) : filesOf (t.chdir cwd) = filesOf t := by
  ext loc
  simp [filesOf, Tree.node?_chdir]

theorem ordinary_chdir {t : Tree} {cwd root : Loc} :
    Ordinary (t.chdir cwd) root ↔ Ordinary t root := by
  simp [Ordinary, Tree.node?_chdir]

/-- The next start goes to its own working directory. -/
theorem Fills.chdir {t u : Tree} {a b : Loc} (h : Fills (t.chdir a) u) (hb : t.isDir b = true) :
    Fills (t.chdir b) (u.chdir b) where
  cwd := by
    have hdir : u.isDir b = true := h.keeps.isDir (by rwa [Tree.isDir_chdir])
    rw [Tree.cwd_chdir hb, Tree.cwd_chdir hdir]
  linkDepth := by
    rw [Tree.linkDepth_chdir, Tree.linkDepth_chdir, h.linkDepth, Tree.linkDepth_chdir]
  kept := by
    simpa [Tree.node?_chdir] using h.kept
  new := by
    simpa [Tree.node?_chdir] using h.new

namespace Asks

variable {t u : Tree} {start : Start} {written : List (Written Opt)} {flow : Flow}

theorem mono (h : Asks t start written flow) {cwd : Loc} (hfills : Fills (t.chdir cwd) u) :
    Asks u start written flow := by
  have hnext := hfills.chdir h.cwd
  have hreal : ∀ {x loc}, (t.chdir start.cwd).realpath x = .ok loc →
      (u.chdir start.cwd).realpath x = .ok loc :=
    Tree.realpath_kept hnext.kept hnext.cwd
  refine ⟨h.args, h.fits, ?_, ?_, ?_, ?_, h.plain, ?_, h.names, ?_, ?_⟩
  · exact hfills.keeps.isDir (by rw [Tree.isDir_chdir, h.cwd])
  · intro f hf
    rcases h.runs f hf with ⟨hruns, hforeground⟩
    refine ⟨⟨hruns.help, hruns.version, fun hdir => ?_⟩, hforeground⟩
    rcases hruns.dir hdir with ⟨loc, hloc⟩
    exact ⟨loc, hreal hloc⟩
  · rcases h.library with ⟨x, hx, hloc⟩
    exact ⟨x, hx, hreal hloc⟩
  · rcases h.target with ⟨x, hx, hloc⟩
    exact ⟨x, hx, hreal hloc⟩
  · exact hfills.keeps.isDir (by rw [Tree.isDir_chdir, h.isDir])
  · exact hfills.ordinary (ordinary_chdir.2 h.scanned)
  · exact hfills.ordinary (ordinary_chdir.2 h.filled)

/-- An engine with the real paths serves the flow. -/
theorem serves (h : Asks t start written flow) :
    Serves (t.chdir start.cwd) (Loc.text flow.root) (Loc.text flow.target) flow := by
  rcases h.target with ⟨x, -, hreal⟩
  have hvalid := Tree.validName_realpath hreal
  have hnames := Loc.names_text hvalid
  have hdir : (t.chdir start.cwd).isDir flow.root = true := by rw [Tree.isDir_chdir, h.isDir]
  have horigin : Tree.origin (t.chdir start.cwd).cwd (File.join [Loc.text flow.target, []]) = [] := by
    rw [File.join_pair]
    exact Tree.origin_of_isAbsolute (isAbsolute_join_file (Tree.isAbsolute_text flow.target)) _
  refine ⟨h.plain, Tree.stat_text hdir, hdir, ?_, ?_, ?_, ordinary_chdir.2 h.scanned,
    ordinary_chdir.2 h.filled⟩
  · rw [horigin, hnames, Tree.filter_text hvalid, List.nil_append]
  · rw [horigin, hnames]
    exact Tree.unlinked_of_isReal (Tree.isReal_realpath hreal)
  · rw [hnames]
    exact h.names

/-- What `parse` makes of the options. -/
theorem parse (h : Asks t start written flow) (level : Level) :
    ∃ p, Main.parse (t.chdir start.cwd) level start.args = .ok (some p) ∧
      p.results.background = false ∧ p.results.library = Loc.text flow.root ∧
      p.results.target = Loc.text flow.target := by
  rw [h.args]
  refine ⟨_, Main.parse_of_runs h.fits (fun f hf => (h.runs f hf).1) level, ?_, ?_, ?_⟩
  · simp only [Main.settle, Bool.false_or, List.any_eq_false]
    intro f hf
    have hnot := (h.runs f hf).2
    simp [hnot.1, hnot.2]
  · rcases h.library with ⟨x, hx, hreal⟩
    simp [Main.settle, hx, Main.dirOf, hreal, Except.toOption]
  · rcases h.target with ⟨x, hx, hreal⟩
    simp [Main.settle, hx, Main.dirOf, hreal, Except.toOption]

end Asks

namespace Start

open Engine (Quiet Called)

variable {κ τ : Type} {yaml : Yaml κ} {platform : Platform} {engineOf : κ → Engine τ}
  {odd : Value κ → World τ → Value κ × World τ} {transcoder : κ}
  (hwrites : Engine.Writes (engineOf transcoder).transcoder)

include hwrites

theorem spreads_of_run {start : Start} {written : List (Written Opt)} {flow : Flow}
    {home home' : Home τ} {ret : Bool} (hasks : Asks home.world.fs.tree start written flow)
    (hrun : start.run yaml platform engineOf odd transcoder home = .ok ret home') :
    Fills (home.world.fs.tree.chdir start.cwd) home'.world.fs.tree ∧
      Engine.Spreads [flow.Makes] home.world home'.world := by
  rcases hasks.parse .ERROR with ⟨p, hparse, hbackground, hlibrary, htarget⟩
  have htree : (home.chdir start.cwd).world.fs.tree = home.world.fs.tree.chdir start.cwd := rfl
  simp only [run, htree, hparse, hbackground, Bool.false_eq_true, if_false, foreground] at hrun
  split at hrun
  · next hrest =>
      split at hrest
      · next w hpass =>
          have hhome : home' = { home.chdir start.cwd with world := w } := by
            cases hrest
            cases hrun
            rfl
          -- in the foreground a run is one pass with a fresh state
          have hserves := hasks.serves
          rw [← hlibrary, ← htarget] at hserves
          have hspread := Engine.fills_of_pass hwrites
            (w := { (home.chdir start.cwd).world with state := State.new p.results.library })
            hserves rfl hpass
          have hfiles := filesOf_chdir home.world.fs.tree start.cwd
          rcases hspread with ⟨hfills, hspread, hquiet, hcalled⟩
          dsimp only at hfills hspread hquiet hcalled
          rw [htree, hfiles] at hspread hquiet hcalled
          rw [← Spread.closed_any_singleton] at hquiet hcalled
          subst hhome
          refine ⟨hfills, ?_, hspread, fun hclosed => ?_, hcalled⟩
          · by_cases hclosed : Spread.Closed (Spread.any [flow.Makes]) (filesOf home.world.fs.tree)
            · rcases (hquiet hclosed).noCall with ⟨events, hevents, _⟩
              exact ⟨events, hevents⟩
            · rcases hcalled hclosed with ⟨events, hevents, _⟩
              exact ⟨events, hevents⟩
          · -- the pass started with another working directory and a new queue
            have hpassed := hquiet hclosed
            refine ⟨hpassed.noCall, fun loc readable hfile => ?_⟩
            have hnode := hpassed.noFile loc readable hfile
            rwa [htree, Tree.node?_chdir] at hnode
      · cases hrest
  · cases hrun

variable {writtenOf : Start → List (Written Opt)} {flowOf : Start → Flow}

/-- What the starts make. -/
def makes (flowOf : Start → Flow) (starts : List Start) : List (Loc → Loc → Prop) :=
  starts.map fun start => (flowOf start).Makes

theorem spreads_of_runs {starts : List Start} :
    ∀ {home home' : Home τ},
      (∀ start ∈ starts, Asks home.world.fs.tree start (writtenOf start) (flowOf start)) →
      runAll yaml platform engineOf odd transcoder starts home = .ok () home' →
      (∀ {start written flow}, Asks home.world.fs.tree start written flow →
        Asks home'.world.fs.tree start written flow) ∧
      Engine.Spreads (makes flowOf starts) home.world home'.world := by
  induction starts with
  | nil =>
      intro home home' _ hrun
      cases hrun
      exact ⟨id, Engine.Spreads.refl _⟩
  | cons start starts ih =>
      intro home home' hasks hrun
      rw [runAll, Each.forM_cons, Each.bind_eq] at hrun
      cases hfirst : start.run yaml platform engineOf odd transcoder home with
      | error e home₁ => simp [hfirst] at hrun
      | ok ret home₁ =>
          simp only [hfirst, Each.pure_eq] at hrun
          rcases spreads_of_run hwrites (hasks start (by simp)) hfirst with ⟨hfills, hspreads⟩
          have hnext := ih (fun s hs => (hasks s (by simp [hs])).mono hfills) hrun
          exact ⟨fun h => hnext.1 (h.mono hfills), hspreads.trans hnext.2⟩

/-- When no library sees a target, starting all of them again converts nothing. -/
theorem quiet_again {starts : List Start} {home home' again : Home τ}
    (hasks : ∀ start ∈ starts, Asks home.world.fs.tree start (writtenOf start) (flowOf start))
    (hrun : runAll yaml platform engineOf odd transcoder starts home = .ok () home')
    (hapart : ∀ f ∈ starts, ∀ g ∈ starts, (flowOf f).Apart (flowOf g))
    (hagain : runAll yaml platform engineOf odd transcoder starts home' = .ok () again) :
    Quiet home'.world again.world := by
  rcases spreads_of_runs hwrites hasks hrun with ⟨hkeep, hspreads⟩
  have hnext := (spreads_of_runs hwrites (fun start hstart => hkeep (hasks start hstart)) hagain).2
  have hflows : ∀ f ∈ starts.map flowOf, ∀ g ∈ starts.map flowOf, f.Apart g := by
    intro f hf g hg
    rcases List.mem_map.1 hf with ⟨s, hs, rfl⟩
    rcases List.mem_map.1 hg with ⟨s', hs', rfl⟩
    exact hapart s hs s' hs'
  have hclosed := Flow.closed_round_of_apart hflows (filesOf home.world.fs.tree)
  have hmakes : (starts.map flowOf).map Flow.Makes = makes flowOf starts := by
    rw [makes, List.map_map]
    rfl
  rw [hmakes, ← hspreads.files] at hclosed
  exact hnext.quiet hclosed

end Start

namespace Sample

open Main (valued)

/-- A library `v` that is given by a link, and a target `t`. -/
def aliasTree : Tree :=
  ((((Tree.empty 8).put [] "v".toList (.dir true)).put ["v".toList] "a.avi".toList
    (.file true)).put [] "t".toList (.dir true)).put [] "l".toList (.link "v".toList)

def aliasFlow : Flow where
  root := ["v".toList]
  target := ["t".toList]

def aliasWritten : List (Written Opt) :=
  [valued .library "l".toList, valued .target "t".toList]

def aliasStart : Start where
  cwd := []
  args := ["-l".toList, "l".toList, "-t".toList, "t".toList]
  rounds := 0
  looks := 0
  ending := .done

theorem node_aliasTree {loc : Loc} {node : Node} (h : aliasTree.node? loc = some node) :
    loc.length ≤ 1 ∨ node = .file true := by
  rcases Tree.of_node_put h with h | ⟨rfl, _⟩
  · rcases Tree.of_node_put h with h | ⟨rfl, _⟩
    · rcases Tree.of_node_put h with h | ⟨_, hfile⟩
      · rcases Tree.of_node_put h with h | ⟨rfl, _⟩
        · by_cases hne : loc = []
          · simp [hne]
          · simp [Tree.node?, hne, Tree.empty] at h
        · simp
      · exact Or.inr hfile
    · simp
  · simp

theorem ordinary_aliasTree {root : Loc} (hroot : root ≠ []) : Ordinary aliasTree root := by
  intro dirs name node hnode _
  rcases node_aliasTree hnode with hshort | hfile
  · have hpos := List.length_pos_of_ne_nil hroot
    simp only [List.length_append, List.length_singleton] at hshort
    omega
  · exact Or.inl hfile

theorem asks_alias : Asks aliasTree aliasStart aliasWritten aliasFlow where
  args := by decide
  fits := by
    intro w hw
    rcases List.mem_pair.1 hw with rfl | rfl
    · exact Main.fits_valued (by decide) rfl _
    · exact Main.fits_valued (by decide) rfl _
  cwd := by decide
  runs := by
    intro f hf
    have hcases : f = { option := .library, value := some "l".toList } ∨
        f = { option := .target, value := some "t".toList } := by
      simpa [aliasWritten, Main.found_valued] using hf
    rcases hcases with rfl | rfl
    · exact ⟨⟨by decide, by decide, fun _ => ⟨aliasFlow.root, by decide +kernel⟩⟩, by decide, by decide⟩
    · exact ⟨⟨by decide, by decide, fun _ => ⟨aliasFlow.target, by decide +kernel⟩⟩, by decide,
        by decide⟩
  library := ⟨"l".toList, by decide, by decide +kernel⟩
  target := ⟨"t".toList, by decide, by decide +kernel⟩
  plain := by decide
  isDir := by decide
  names := by
    intro name hname
    rw [List.mem_singleton.1 hname]
    exact ⟨by decide, by decide⟩
  scanned := ordinary_aliasTree (by decide)
  filled := ordinary_aliasTree (by decide)

def plainYaml : Yaml Unit where
  dump := fun _ => .ok []
  load := fun _ => .ok .nil

def aliasRun : EStateM.Result Raised (Home Unit) Unit :=
  Start.runAll plainYaml platform servingEngine Prod.mk () [aliasStart]
    { world := world () aliasTree, data := fun _ => [] }

end Sample

end Yikes
