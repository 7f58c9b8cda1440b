import Mathlib.Logic.Equiv.List
import Yikes.Lib.Session
import Yikes.Properties.Load
import Yikes.Properties.Memory

/-!
# Session — what one run in the background remembers of those before it

Between two sessions there is nothing but the state file.  `Ready` says what it must be like for the
next one, wherever that is started; every session that comes to its end, or is killed before it saves,
leaves it so (`ready_run`).  So what a session finds is what the sessions before it were asked for, and
what those of them did that came to their end (`sessions_remember`).
-/

namespace Yikes

open Ruby

namespace Session

variable {κ τ : Type} (yaml : Yaml κ) (platform : Platform) (engineOf : κ → Engine τ)
  (odd : Value κ → World τ → Value κ × World τ) (transcoder : κ)

theorem validName_stateYaml : ValidName stateYaml := by
  unfold ValidName stateYaml
  decide

/-! ## The state file -/

/-- There is no state file, and nothing to remember, or it has the registry. -/
def Stored (memory : Memory) (fs : FileSystem) : Prop :=
  ∃ dir, fs.tree.Leads (File.names platform.settingsPath) dir ∧
    ((fs.tree.node? (dir ++ [stateYaml]) = none ∧ memory = ⟨[], []⟩) ∨
      (fs.tree.node? (dir ++ [stateYaml]) = some (.file true) ∧
        ∃ r, yaml.dump r.toValue = .ok (fs.data (dir ++ [stateYaml])) ∧
          Remembers transcoder memory r))

/-- Wherever the next process is started, it finds the settings directory, or makes it. -/
def Ready (memory : Memory) (home : Home τ) : Prop :=
  ∀ cwd, ∃ t, platform.settingsDir (home.world.settings.chdir cwd) =
      .ok (platform.settingsPath, t) ∧
    Stored yaml platform transcoder memory { tree := t, data := home.data }

/-- The memory once a session was asked for its engine and has made these events. -/
def extend (session : Session) (memory : Memory) (events : List Event) : Memory where
  requested := memory.requested ++
    [(session.parsing.results.library, session.parsing.results.target)]
  events := memory.events ++ events

/-- What there is to remember after a session; nothing of its own if it did not come to its end. -/
def remember (session : Session) (home : Home τ) (memory : Memory) : Memory :=
  match session.run yaml platform engineOf odd transcoder home, session.ending with
  | .ok _ home', .done =>
      session.extend memory (home'.world.events.drop home.world.events.length)
  | _, _ => memory

def rememberAll : List Session → Home τ → Memory → Memory
  | [], _, memory => memory
  | session :: sessions, home, memory =>
      rememberAll sessions (Each.left (session.run yaml platform engineOf odd transcoder home))
        (session.remember yaml platform engineOf odd transcoder home memory)

variable {yaml platform engineOf transcoder} {memory : Memory}

namespace Stored

variable {fs : FileSystem}

theorem chdir (h : Stored yaml platform transcoder memory fs) (cwd : Loc) :
    Stored yaml platform transcoder memory { fs with tree := fs.tree.chdir cwd } := by
  rcases h with ⟨dir, hleads, hfile⟩
  refine ⟨dir, hleads.chdir cwd, ?_⟩
  rwa [Tree.node?_chdir]

theorem grows (h : Stored yaml platform transcoder memory fs) {t : Tree}
    (hgrows : platform.Grows fs.tree t) :
    Stored yaml platform transcoder memory { fs with tree := t } := by
  rcases h with ⟨dir, hleads, hfile⟩
  refine ⟨dir, hleads.mono hgrows.keeps, ?_⟩
  rwa [hgrows.beside dir hleads stateYaml (by decide)]

variable (habs : File.isAbsolute platform.settingsPath = true)

include habs

theorem ready {home : Home τ} (h : Stored yaml platform transcoder memory home.files) :
    Ready yaml platform transcoder memory home := by
  intro cwd
  have hthere := h.chdir cwd
  rcases hthere with ⟨dir, hleads, hfile⟩
  exact ⟨_, Platform.settingsDir_of_leads habs hleads, dir, hleads, hfile⟩

/-- What was stored is loaded. -/
theorem loadState (hload : ∀ (r : Registry κ) (text : List UInt8), yaml.dump r.toValue = .ok text →
      yaml.load text = .ok r.toValue) (h : Stored yaml platform transcoder memory fs) :
    ∃ r, EngineManager.loadState yaml fs (stateFile platform) = r.toValue ∧
      Remembers transcoder memory r := by
  have hpath : stateFile platform = File.join2 platform.settingsPath stateYaml := rfl
  rcases h with ⟨dir, hleads, ⟨hnone, rfl⟩ | ⟨hfile, r, hdump, hremembers⟩⟩
  · have hread := read_kept_none validName_stateYaml habs hleads hnone
    refine ⟨.empty, ?_, remembers_empty⟩
    simp only [EngineManager.loadState, hpath, hread]
    rfl
  · have hread := read_kept validName_stateYaml habs hleads hfile
    refine ⟨r, ?_, hremembers⟩
    simp only [EngineManager.loadState, hpath, hread, hload r _ hdump]

/-- What is saved is stored. -/
theorem saveState (h : Stored yaml platform transcoder memory fs) {r : Registry κ}
    {text : List UInt8} (hdump : yaml.dump r.toValue = .ok text) {memory' : Memory}
    (hremembers : Remembers transcoder memory' r) :
    Stored yaml platform transcoder memory'
      (EngineManager.saveState yaml fs (stateFile platform) r.toValue (some text.length)) := by
  have hpath : stateFile platform = File.join2 platform.settingsPath stateYaml := rfl
  rcases h with ⟨dir, hleads, hfile⟩
  have hplace : fs.tree.node? (dir ++ [stateYaml]) = none ∨
      fs.tree.node? (dir ++ [stateYaml]) = some (.file true) := by
    rcases hfile with ⟨hnone, -⟩ | ⟨hfile, -⟩
    · exact Or.inl hnone
    · exact Or.inr hfile
  rcases openWrite_kept validName_stateYaml habs hleads hplace with
    ⟨opened, hopen, hkeeps, hnode⟩
  have hsaved : EngineManager.saveState yaml fs (stateFile platform) r.toValue (some text.length) =
      opened.fill (dir ++ [stateYaml]) text := by
    simp only [EngineManager.saveState, hpath, hopen, EngineManager.initializeIfNeeded_toValue, hdump,
      List.take_length]
  rw [hsaved]
  refine ⟨dir, hleads.mono hkeeps, Or.inr ⟨hnode, r, ?_, hremembers⟩⟩
  simp [FileSystem.fill, hdump]

end Stored

/-! ## One session -/

section Run

variable (hload : ∀ (r : Registry κ) (text : List UInt8), yaml.dump r.toValue = .ok text →
    yaml.load text = .ok r.toValue)
  (hdump : ∀ r : Registry κ, ∃ text, yaml.dump r.toValue = .ok text)
  (habs : File.isAbsolute platform.settingsPath = true)
  (hplatform : ∀ k, (engineOf k).platform = platform)

include habs

theorem statePath_of_stored {home : Home τ}
    (h : Stored yaml platform transcoder memory home.files) :
    statePath platform home = .ok (stateFile platform) home := by
  rcases h with ⟨dir, hleads, -⟩
  have hsettings := Platform.settingsDir_of_leads habs hleads
  simp only [statePath, Home.files] at hsettings ⊢
  rw [hsettings]
  rfl

include hload

/-- A session that is started anywhere loads what is remembered. -/
theorem loadEngines_of_ready {home : Home τ} (h : Ready yaml platform transcoder memory home)
    (cwd : Loc) :
    ∃ r t, loadEngines yaml platform (home.chdir cwd) =
        .ok r.toValue ((home.chdir cwd).setSettings t) ∧
      Remembers transcoder memory r ∧
      Stored yaml platform transcoder memory ((home.chdir cwd).setSettings t).files := by
  rcases h cwd with ⟨t, hsettings, hstored⟩
  rcases hstored.loadState habs hload with ⟨r, hloaded, hremembers⟩
  refine ⟨r, t, ?_, hremembers, hstored⟩
  have hpath : statePath platform (home.chdir cwd) =
      .ok (stateFile platform) ((home.chdir cwd).setSettings t) := by
    have hsettings' : platform.settingsDir (home.chdir cwd).world.settings =
        .ok (platform.settingsPath, t) := hsettings
    rw [statePath, hsettings']
    rfl
  have hfiles : ((home.chdir cwd).setSettings t).files = { tree := t, data := home.data } := rfl
  rw [loadEngines, Each.bind_eq, hpath]
  simp only [Each.bind_eq, Each.get_eq, Each.pure_eq, hfiles, hloaded]

omit hload

include hdump

theorem saveEngines_of_stored {session : Session} {home : Home τ}
    (h : Stored yaml platform transcoder memory home.files) {memory' : Memory} {r : Registry κ}
    (hremembers : Remembers transcoder memory' r) (hdone : session.ending = .done) :
    ∃ home', saveEngines yaml platform session r.toValue home = .ok () home' ∧
      home'.world.events = home.world.events ∧
      Stored yaml platform transcoder memory' home'.files := by
  rcases hdump r with ⟨text, htext⟩
  have hreached : reached yaml r.toValue session.ending = some text.length := by
    rw [hdone, reached, htext]
  have hsaved := h.saveState habs htext hremembers
  refine ⟨home.setFiles (EngineManager.saveState yaml home.files (stateFile platform) r.toValue
    (some text.length)), ?_, rfl, hsaved⟩
  rw [saveEngines, Each.bind_eq, statePath_of_stored habs h]
  simp only [Each.modify_eq, hreached]

include hplatform

/-- How a session ends that polls. -/
theorem pollAndSave_cases {session : Session} {home : Home τ}
    (h : Stored yaml platform transcoder memory home.files) {r : Registry κ} {requested : List Key}
    (hremembers : Remembers transcoder { memory with requested := requested } r)
    (hnot : ∀ count, session.ending ≠ .stopped count) :
    ∃ home' events, pollAndSave yaml platform engineOf odd session r.toValue home = .ok () home' ∧
      home'.world.events = home.world.events ++ events ∧
      ((session.ending = .killed ∧ Stored yaml platform transcoder memory home'.files) ∨
        (session.ending = .done ∧ Stored yaml platform transcoder
          { requested := requested, events := memory.events ++ events } home'.files)) := by
  have hcontinues := EngineManager.continues_poll habs hplatform session.rounds
    (p := { engines := r, world := home.world, looks := session.looks }) hremembers
  have hpoll : poll engineOf odd session r.toValue home =
      let p := Each.left (EngineManager.pollDirectoryAndEncode engineOf session.rounds
        { engines := r, world := home.world, looks := session.looks })
      .ok p.engines.toValue { home with world := p.world } := by
    simp only [poll, Registry.ofValue?_toValue]
  generalize Each.left (EngineManager.pollDirectoryAndEncode engineOf session.rounds
    { engines := r, world := home.world, looks := session.looks }) = p at hcontinues hpoll
  rcases hcontinues.remembers with ⟨events, hevents, hpolled⟩
  have hstored : Stored yaml platform transcoder memory { home with world := p.world }.files :=
    h.grows hcontinues.settings
  rw [pollAndSave, Each.bind_eq, hpoll]
  cases hending : session.ending with
  | killed => exact ⟨_, events, by simp [Each.pure_eq], hevents, Or.inl ⟨rfl, hstored⟩⟩
  | stopped count => exact absurd hending (hnot count)
  | done =>
      rcases saveEngines_of_stored hdump habs hstored hpolled hending with
        ⟨home', hsave, hsame, hsaved⟩
      refine ⟨home', events, by simpa using hsave, hsame.trans hevents, Or.inr ⟨rfl, hsaved⟩⟩

include hload

/-- What a session leaves, wherever it ends: before it polls, killed after that, or when everything is
saved. -/
theorem run_cases {session : Session} {home : Home τ}
    (h : Ready yaml platform transcoder memory home)
    (hnot : ∀ count, session.ending ≠ .stopped count) :
    (∃ e home', session.run yaml platform engineOf odd transcoder home = .error e home' ∧
        Ready yaml platform transcoder memory home') ∨
      ∃ home' events, session.run yaml platform engineOf odd transcoder home = .ok () home' ∧
        home'.world.events = home.world.events ++ events ∧
        ((session.ending = .killed ∧ Ready yaml platform transcoder memory home') ∨
          (session.ending = .done ∧
            Ready yaml platform transcoder (session.extend memory events) home')) := by
  rcases loadEngines_of_ready hload habs h session.cwd with ⟨r, t, hloaded, hremembers, hstored⟩
  have hadded := hremembers.add session.parsing.results.library session.parsing.results.target
  have hadd : ∀ v : Home τ, addEngine transcoder session r.toValue v =
      .ok (EngineManager.addEngine r session.parsing.results.library
        session.parsing.results.target transcoder).2.toValue v := by
    intro v
    simp only [addEngine, EngineManager.addEngineTo_toValue]
  -- polling and saving go the same way with and without the daemon
  have hgo : ∀ {v : Home τ}, Stored yaml platform transcoder memory v.files →
      v.world.events = home.world.events → ∃ home' events,
        pollAndSave yaml platform engineOf odd session
            (EngineManager.addEngine r session.parsing.results.library
              session.parsing.results.target transcoder).2.toValue v = .ok () home' ∧
          home'.world.events = home.world.events ++ events ∧
          ((session.ending = .killed ∧ Ready yaml platform transcoder memory home') ∨
            (session.ending = .done ∧
              Ready yaml platform transcoder (session.extend memory events) home')) := by
    intro v hv hevents
    rcases pollAndSave_cases odd hdump habs hplatform hv hadded hnot with
      ⟨home', events, hrun, hmade, hend⟩
    refine ⟨home', events, hrun, by rw [hmade, hevents], ?_⟩
    rcases hend with ⟨hkilled, hleft⟩ | ⟨hdone, hleft⟩
    · exact Or.inl ⟨hkilled, hleft.ready habs⟩
    · exact Or.inr ⟨hdone, hleft.ready habs⟩
  simp only [run, Each.bind_eq, Each.modify_eq, hloaded, hadd]
  by_cases hdaemon : Main.shouldDaemonize session.parsing.level = true
  · simp only [hdaemon, if_true, Each.bind_eq, daemonize]
    by_cases htmp : ((home.chdir session.cwd).setSettings t).world.fs.tree.isDir Main.daemonDir = true
    · simp only [htmp, if_true]
      exact Or.inr (hgo (hstored.chdir Main.daemonDir) rfl)
    · simp only [htmp]
      exact Or.inl ⟨_, _, rfl, hstored.ready habs⟩
  · simp only [hdaemon]
    exact Or.inr (hgo hstored rfl)

theorem ready_run {session : Session} {home : Home τ}
    (h : Ready yaml platform transcoder memory home)
    (hnot : ∀ count, session.ending ≠ .stopped count) :
    Ready yaml platform transcoder
      (session.remember yaml platform engineOf odd transcoder home memory)
      (Each.left (session.run yaml platform engineOf odd transcoder home)) := by
  rcases run_cases odd hload hdump habs hplatform h hnot with
    ⟨e, home', hrun, hready⟩ | ⟨home', events, hrun, hmade, ⟨hkilled, hready⟩ | ⟨hdone, hready⟩⟩
  · simpa only [remember, hrun, Each.left_error] using hready
  · simpa only [remember, hrun, hkilled, Each.left_ok] using hready
  · have hnew : home'.world.events.drop home.world.events.length = events := by
      rw [hmade, List.drop_left]
    simpa only [remember, hrun, hdone, hnew, Each.left_ok] using hready

theorem ready_runAll (sessions : List Session)
    (hnot : ∀ session ∈ sessions, ∀ count, session.ending ≠ .stopped count) :
    ∀ {home : Home τ} {memory : Memory}, Ready yaml platform transcoder memory home →
      Ready yaml platform transcoder
        (rememberAll yaml platform engineOf odd transcoder sessions home memory)
        (runAll yaml platform engineOf odd transcoder sessions home) := by
  induction sessions with
  | nil => exact fun h => h
  | cons session sessions ih =>
      intro home memory h
      have hfirst := ready_run odd hload hdump habs hplatform h
        (hnot session List.mem_cons_self)
      exact ih (fun s hs => hnot s (List.mem_cons_of_mem _ hs)) hfirst

/-- Whatever sessions there were, as long as none ended while it saved, the next one, wherever it is
started, loads a registry that remembers what all those were asked for, and did, that came to their
end. -/
theorem sessions_remember {home : Home τ} (hfresh : Ready yaml platform transcoder ⟨[], []⟩ home)
    (sessions : List Session)
    (hnot : ∀ session ∈ sessions, ∀ count, session.ending ≠ .stopped count) (cwd : Loc) :
    ∃ r home',
      loadEngines yaml platform
          ((runAll yaml platform engineOf odd transcoder sessions home).chdir cwd) =
        .ok r.toValue home' ∧
      Remembers transcoder
        (rememberAll yaml platform engineOf odd transcoder sessions home ⟨[], []⟩) r := by
  have hready := ready_runAll odd hload hdump habs hplatform sessions hnot hfresh
  rcases loadEngines_of_ready hload habs hready cwd with ⟨r, t, hloaded, hremembers, -⟩
  exact ⟨r, _, hloaded, hremembers⟩

end Run

end Session

/-! ## Two videos directories -/

namespace Sample

/-- An item as numbers. -/
abbrev ItemCode := List Nat × List Nat × List Nat × Bool × Option Nat

/-- An engine and its key. -/
abbrev EntryCode :=
  (List Nat × List Nat) × List ItemCode × List ItemCode × List Nat × Option (List Nat)

def codes (s : Str) : List Nat :=
  s.map Char.toNat

def chars (codes : List Nat) : Str :=
  codes.map Char.ofNat

def itemCode (item : EncodingItem) : ItemCode :=
  (codes item.library, codes item.subpath, codes item.target, item.succeeded, item.finishedAt)

def itemOfCode (code : ItemCode) : EncodingItem where
  library := chars code.1
  subpath := chars code.2.1
  target := chars code.2.2.1
  succeeded := code.2.2.2.1
  finishedAt := code.2.2.2.2

def entryCode (entry : Key × Registered Unit) : EntryCode :=
  ((codes entry.1.1, codes entry.1.2), entry.2.state.encodedQueue.map itemCode,
    entry.2.state.toEncodeQueue.map itemCode, codes entry.2.state.library,
    entry.2.state.target.map codes)

def entryOfCode (code : EntryCode) : Key × Registered Unit :=
  ((chars code.1.1, chars code.1.2),
    { transcoder := ()
      state :=
        { encodedQueue := code.2.1.map itemOfCode
          toEncodeQueue := code.2.2.1.map itemOfCode
          library := chars code.2.2.2.1
          target := code.2.2.2.2.map chars } })

/-- Texts that only their length tells apart. -/
def unaryYaml : Yaml Unit where
  dump engines :=
    match Registry.ofValue? engines with
    | some r => .ok (List.replicate (Encodable.encode (r.entries.map entryCode)) 0)
    | none => .error typeError
  load text :=
    match (Encodable.decode text.length : Option (List EntryCode)) with
    | some entries => .ok (.map (entries.map fun code => Registry.toEntry (entryOfCode code)))
    | none => .error typeError

theorem chars_codes (s : Str) : chars (codes s) = s := by
  simp [chars, codes, Function.comp_def]

theorem itemOfCode_itemCode (item : EncodingItem) : itemOfCode (itemCode item) = item := by
  simp [itemOfCode, itemCode, chars_codes]

theorem entryOfCode_entryCode (entry : Key × Registered Unit) :
    entryOfCode (entryCode entry) = entry := by
  rcases entry with ⟨⟨library, target⟩, ⟨⟨⟩, ⟨encoded, toEncode, lib, tgt⟩⟩⟩
  simp [entryOfCode, entryCode, chars_codes, Function.comp_def, itemOfCode_itemCode]

theorem dump_unaryYaml (r : Registry Unit) :
    unaryYaml.dump r.toValue =
      .ok (List.replicate (Encodable.encode (r.entries.map entryCode)) 0) := by
  simp [unaryYaml, Registry.ofValue?_toValue]

theorem load_unaryYaml (r : Registry Unit) (text : List UInt8)
    (h : unaryYaml.dump r.toValue = .ok text) : unaryYaml.load text = .ok r.toValue := by
  rw [dump_unaryYaml] at h
  cases h
  simp [unaryYaml, Registry.toValue_eq, Function.comp_def, entryOfCode_entryCode]

/-- A run from the working directory, in debug mode. -/
def session (library target : String) (ending : Ending) : Session where
  cwd := []
  parsing :=
    { results := { library := library.toList, target := target.toList, background := true }
      level := .DEBUG }
  rounds := 3
  looks := 10
  ending := ending

/-- The second one is killed. -/
def sessions : List Session :=
  [session "." "iPod" .done, session "v" "iPod" .killed, session "." "iPod" .done]

/-- Nobody has run the program before. -/
def home : Home Unit where
  world := world () tree
  data := fun _ => []

/-- The settings directory was made. -/
def settled : Tree :=
  ((Tree.empty 8).put [] "home".toList (.dir true)).put ["home".toList] ".yikes".toList (.dir true)

theorem ready_home :
    Session.Ready unaryYaml platform () ⟨[], []⟩ home := by
  intro cwd
  have hroot : (Tree.empty 8).chdir cwd = Tree.empty 8 := by
    unfold Tree.chdir
    split
    · next h =>
        have hcwd : cwd = [] := by
          by_contra hne
          simp [Tree.isDir, Tree.node?, hne, Tree.empty] at h
        subst hcwd
        rfl
    · rfl
  refine ⟨settled, ?_, ["home".toList, ".yikes".toList], ⟨by decide, by decide⟩,
    Or.inl ⟨by decide, rfl⟩⟩
  have hsettings : home.world.settings = Tree.empty 8 := rfl
  rw [hsettings, hroot]
  rfl

end Sample

theorem sessions_remember_sample :
    ∃ r home', Session.loadEngines Sample.unaryYaml Sample.platform
        ((Session.runAll Sample.unaryYaml Sample.platform Sample.servingEngine Prod.mk ()
          Sample.sessions Sample.home).chdir []) = .ok r.toValue home' ∧
      Remembers () (Session.rememberAll Sample.unaryYaml Sample.platform Sample.servingEngine Prod.mk ()
        Sample.sessions Sample.home ⟨[], []⟩) r := by
  have hdump : ∀ r : Registry Unit, ∃ text, Sample.unaryYaml.dump r.toValue = .ok text :=
    fun r => ⟨_, Sample.dump_unaryYaml r⟩
  have hnot : ∀ session ∈ Sample.sessions, ∀ count, session.ending ≠ .stopped count := by
    simp [Sample.sessions, Sample.session]
  have habs : File.isAbsolute Sample.platform.settingsPath = true := by decide
  have hplatform : ∀ k, (Sample.servingEngine k).platform = Sample.platform := fun _ => rfl
  exact Session.sessions_remember Prod.mk Sample.load_unaryYaml hdump habs hplatform
    Sample.ready_home Sample.sessions hnot []

end Yikes
