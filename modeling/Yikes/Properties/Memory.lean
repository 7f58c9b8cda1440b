import Yikes.Properties.Once
import Yikes.Properties.Preview
import Yikes.Ruby.Heap
import Yikes.Ruby.Kept

/-!
# Memory — what a registry tells of the passes that were made

A registry `Remembers` what was asked for and what was done since: it has one engine for every library
and target, in the order they were first asked for, and the finished list of an engine is the window of
the records that the passes over its library made.

* `told_of_turn` is the step lemma: what a turn adds to the finished list is what its events say;
* `continues_poll` goes from there to any number of rounds of the polling loop, also those that an
  exception ends.
-/

namespace Yikes

open Ruby

/-! ## Records -/

namespace EncodingItem

def key (item : EncodingItem) : Key :=
  (item.library, item.target)

/-- An item but for the time it was finished. -/
def unstamped (item : EncodingItem) : EncodingItem :=
  { item with finishedAt := none }

end EncodingItem

theorem State.encodedQueue_addToFinishedList (state : State) (item : EncodingItem) (now : Time) :
    (state.addToFinishedList item now).encodedQueue =
      last ItemsInFinishedList (state.encodedQueue ++ [{ item with finishedAt := some now }]) := by
  unfold addToFinishedList
  dsimp only
  split
  · next hle => exact (last_of_length_le hle).symm
  · rfl

/-- What an event says about an item of the engine under `key`. -/
def recordOf (key : Key) : Event → Option EncodingItem
  | .succeeded item =>
      if item.key = key then some { item with succeeded := true, finishedAt := none } else none
  | .failed item =>
      if item.key = key then some { item with succeeded := false, finishedAt := none } else none
  | _ => none

def recordsOf (key : Key) (events : List Event) : List EncodingItem :=
  events.filterMap (recordOf key)

theorem recordsOf_append (key : Key) (events events' : List Event) :
    recordsOf key (events ++ events') = recordsOf key events ++ recordsOf key events' :=
  List.filterMap_append

/-- Calls of the transcoder say nothing. -/
theorem recordsOf_calls {calls : List Event} (h : ∀ x, .succeeded x ∉ calls ∧ .failed x ∉ calls)
    (key : Key) : recordsOf key calls = [] := by
  rw [recordsOf, List.filterMap_eq_nil_iff]
  intro event hevent
  cases event with
  | succeeded x => exact absurd hevent (h x).1
  | failed x => exact absurd hevent (h x).2
  | _ => rfl

/-! ## The settings directory -/

namespace Platform

def preview : Str := "preview".toList

theorem validName_preview : ValidName preview := by
  unfold ValidName preview
  decide

/-- From `t` to `u` nothing was lost, and beside the preview directory nothing was made in the
settings directory. -/
structure Grows (platform : Platform) (t u : Tree) : Prop where
  keeps : Tree.Keeps t u
  beside : ∀ dir, t.Leads (File.names platform.settingsPath) dir → ∀ name, name ≠ preview →
    u.node? (dir ++ [name]) = t.node? (dir ++ [name])

variable {platform : Platform} {t u v : Tree}

theorem Grows.refl (platform : Platform) (t : Tree) : platform.Grows t t :=
  ⟨Tree.Keeps.refl t, fun _ _ _ _ => rfl⟩

theorem Grows.trans (h : platform.Grows t u) (h' : platform.Grows u v) : platform.Grows t v := by
  refine ⟨h.keeps.trans h'.keeps, ?_⟩
  intro dir hleads name hne
  exact (h'.beside dir (hleads.mono h.keeps) name hne).trans (h.beside dir hleads name hne)

variable (habs : File.isAbsolute platform.settingsPath = true)

include habs

theorem settingsDir_eq (t : Tree) :
    platform.settingsDir t =
      (t.mkdir_p platform.settingsPath).map fun t' => (platform.settingsPath, t') := by
  by_cases hos : platform.os = some .windows
  · -- there the path is not absolute
    rw [settingsPath, if_pos hos] at habs
    exact absurd habs (by decide)
  · rw [settingsDir, if_neg hos]

theorem settingsDir_of_leads {dir : Loc} (h : t.Leads (File.names platform.settingsPath) dir) :
    platform.settingsDir t = .ok (platform.settingsPath, t) := by
  rw [settingsDir_eq habs, Tree.mkdir_p_of_leads habs h]
  rfl

/-- However `screenshot_dir` ends, nothing is lost. -/
theorem keeps_screenshotDir (h : (∃ dir, platform.screenshotDir t = .ok (dir, u)) ∨
    ∃ e, platform.screenshotDir t = .error (e, u)) : Tree.Keeps t u := by
  unfold screenshotDir at h
  rw [settingsDir_eq habs] at h
  cases hsettings : t.mkdir_p platform.settingsPath with
  | error e =>
      have hu : ∃ e', e = (e', u) := by simpa [hsettings, Except.map] using h
      rcases hu with ⟨e', rfl⟩
      exact Tree.keeps_mkdir_p (Or.inr ⟨e', hsettings⟩)
  | ok t₁ =>
      have hfirst := Tree.keeps_mkdir_p (Or.inl hsettings)
      refine hfirst.trans (@Tree.keeps_mkdir_p t₁ u platform.previewPath ?_)
      cases hpreview : t₁.mkdir_p platform.previewPath with
      | error e =>
          right
          have hu : ∃ e', e = (e', u) := by simpa [hsettings, hpreview, Except.map] using h
          rcases hu with ⟨e', rfl⟩
          exact ⟨e', rfl⟩
      | ok t₂ =>
          left
          have hu : t₂ = u := by
            rcases h with ⟨dir, h⟩ | ⟨e, h⟩
            · have hpair : platform.previewPath = dir ∧ t₂ = u := by
                simpa [hsettings, hpreview, Except.map] using h
              exact hpair.2
            · simp [hsettings, hpreview, Except.map] at h
          rw [hu]

theorem grows_screenshotDir (h : (∃ dir, platform.screenshotDir t = .ok (dir, u)) ∨
    ∃ e, platform.screenshotDir t = .error (e, u)) : platform.Grows t u := by
  refine ⟨keeps_screenshotDir habs h, ?_⟩
  intro dir hleads name hne
  have hmade := @mkdir_p_join_file _ _ validName_preview ⟨t, fun _ => []⟩ _ habs hleads
  have hshot : platform.screenshotDir t =
      (t.mkdir_p platform.previewPath).map fun t' => (platform.previewPath, t') := by
    rw [screenshotDir, settingsDir_of_leads habs hleads]
  have hpath : platform.previewPath = File.join2 platform.settingsPath preview := rfl
  rw [hshot, hpath, hmade] at h
  cases hstep : t.mkdirStep dir preview with
  | error e =>
      have hu : t = u := by simpa [hstep, Except.map] using h
      rw [hu]
  | ok r =>
      have hu : r.1 = u := by simpa [hstep, Except.map] using h
      rcases Tree.mkdirStep_cases hstep with hsame | ⟨hput, -⟩
      · rw [← hu, hsame]
      · rw [← hu, hput]
        refine Tree.node?_put_ne ?_
        simpa using hne

end Platform

/-! ## One turn -/

namespace Engine

variable {τ : Type}

/-- From `w` to `w'` the engine under `key` took down what the events say, and they say nothing about
any other. -/
structure Told (platform : Platform) (key : Key) (w w' : World τ) : Prop where
  library : w'.state.library = w.state.library
  target : w'.state.target = w.state.target
  queue : w'.state.toEncodeQueue = w.state.toEncodeQueue
  events : ∃ events, w'.events = w.events ++ events ∧
    (∀ key', key' ≠ key → recordsOf key' events = []) ∧
    w'.state.encodedQueue.map EncodingItem.unstamped =
      last ItemsInFinishedList
        (w.state.encodedQueue.map EncodingItem.unstamped ++ recordsOf key events)
  settings : platform.Grows w.settings w'.settings

/-- The finished list is never longer than its window. -/
def Windowed (w : World τ) : Prop :=
  w.state.encodedQueue.length ≤ ItemsInFinishedList

namespace Told

variable {platform : Platform} {key : Key} {w w' w'' : World τ}

/-- The engine took nothing down, and there is nothing to say. -/
theorem of_calls (hwindow : Windowed w) (hstate : w'.state = w.state)
    (hevents : ∃ calls, w'.events = w.events ++ calls ∧
      ∀ x, .succeeded x ∉ calls ∧ .failed x ∉ calls)
    (hsettings : platform.Grows w.settings w'.settings) : Told platform key w w' := by
  rcases hevents with ⟨calls, heq, hcalls⟩
  refine ⟨by rw [hstate], by rw [hstate], by rw [hstate], ⟨calls, heq, ?_, ?_⟩, hsettings⟩
  · exact fun key' _ => recordsOf_calls hcalls key'
  · rw [hstate, recordsOf_calls hcalls, List.append_nil, last_of_length_le]
    simpa [Windowed] using hwindow

theorem trans (h : Told platform key w w') (h' : Told platform key w' w'') :
    Told platform key w w'' := by
  rcases h.events with ⟨events, heq, hothers, hlist⟩
  rcases h'.events with ⟨events', heq', hothers', hlist'⟩
  refine ⟨h'.library.trans h.library, h'.target.trans h.target, h'.queue.trans h.queue,
    ⟨events ++ events', by rw [heq', heq, List.append_assoc], ?_, ?_⟩,
    h.settings.trans h'.settings⟩
  · intro key' hne
    rw [recordsOf_append, hothers key' hne, hothers' key' hne, List.append_nil]
  · rw [hlist', hlist, last_append_last, recordsOf_append, List.append_assoc]

theorem windowed (h : Told platform key w w') : Windowed w' := by
  rcases h.events with ⟨events, -, -, hlist⟩
  have hlength := congrArg List.length hlist
  rw [List.length_map] at hlength
  rw [Windowed, hlength, last, List.length_drop]
  omega

end Told

section Turn

variable {engine : Engine τ} {item : EncodingItem} {w w' : World τ}
  (habs : File.isAbsolute engine.platform.settingsPath = true)

/-- Taking an item down. -/
theorem told_of_record {event : Event} {x : EncodingItem} {now : Time}
    (hstate : w'.state = w.state.addToFinishedList x now) (hevents : w'.events = w.events ++ [event])
    (hsettings : w'.settings = w.settings)
    (hothers : ∀ key', key' ≠ item.key → recordOf key' event = none)
    (hrecord : recordOf item.key event = some x.unstamped) :
    Told engine.platform item.key w w' := by
  refine ⟨by rw [hstate]; rfl, by rw [hstate]; rfl, by rw [hstate]; rfl,
    ⟨[event], hevents, ?_, ?_⟩, by rw [hsettings]; exact .refl _ _⟩
  · intro key' hne
    simp [recordsOf, hothers key' hne]
  · rw [hstate, State.encodedQueue_addToFinishedList, map_last, List.map_append]
    simp [recordsOf, hrecord, EncodingItem.unstamped]

theorem told_succeeded : Told engine.platform item.key w (w.encodeSucceeded item) := by
  refine told_of_record rfl rfl rfl ?_ ?_
  · intro key' hne
    simp [recordOf, hne.symm]
  · simp [recordOf, EncodingItem.unstamped]

theorem told_failed : Told engine.platform item.key w (w.encodeFailed item) := by
  refine told_of_record rfl rfl rfl ?_ ?_
  · intro key' hne
    simp [recordOf, hne.symm]
  · simp [recordOf, EncodingItem.unstamped]

theorem settings_of_transcoded {ret : Bool} (h : Transcoded engine item w ret w') :
    w'.settings = w.settings := by
  cases h with
  | present hthere => rfl
  | ran hfree hrun => rfl

include habs

theorem settings_of_previewed {r : EStateM.Result Fault (World τ) Unit}
    (h : Previewed engine item w r) : engine.platform.Grows w.settings (Each.left r).settings := by
  cases h with
  | noDirectory hdir => exact Platform.grows_screenshotDir habs (Or.inr ⟨_, hdir⟩)
  | notBegun hdir hbefore => exact Platform.grows_screenshotDir habs (Or.inl ⟨_, hdir⟩)
  | raised hdir hbefore hshot => exact Platform.grows_screenshotDir habs (Or.inl ⟨_, hdir⟩)
  | done hdir hbefore hshot => exact Platform.grows_screenshotDir habs (Or.inl ⟨_, hdir⟩)

/-- What a turn adds to the finished list is what its events say. -/
theorem told_of_turn {r : EStateM.Result Fault (World τ) Unit} (hwindow : Windowed w)
    (h : Turn engine item w r) : Told engine.platform item.key w (Each.left r) := by
  have hcall : ∀ {t : Tree} {ret : Bool} {v : World τ},
      Transcoded engine item (w.setTree t) ret v → Told engine.platform item.key w v := by
    intro t ret v hrun
    rcases hrun.noRecord with ⟨hstate, calls, hcalls, hnone⟩
    refine .of_calls hwindow hstate ⟨calls, hcalls, hnone⟩ ?_
    rw [settings_of_transcoded hrun]
    exact .refl _ _
  have hpreview : ∀ {v : World τ} {r : EStateM.Result Fault (World τ) Unit}, Windowed v →
      Previewed engine item v r → Told engine.platform item.key v (Each.left r) := by
    intro v r hv hshot
    exact .of_calls hv hshot.noRecord.1 hshot.noRecord.2 (settings_of_previewed habs hshot)
  cases h with
  | skipped hskip => exact .of_calls hwindow rfl ⟨_, rfl, by simp⟩ (.refl _ _)
  | noDirectory hdue hdir =>
      exact .of_calls hwindow rfl ⟨[], by simp [World.setTree], by simp⟩ (.refl _ _)
  | raised hdue hdir hfree hrun => exact .of_calls hwindow rfl ⟨_, rfl, by simp⟩ (.refl _ _)
  | failed hdue hdir hrun => exact (hcall hrun).trans told_failed
  | notPreviewed hdue hdir hrun hshot =>
      exact (hcall hrun).trans (hpreview (hcall hrun).windowed hshot)
  | succeeded hdue hdir hrun hshot =>
      have hshown := (hcall hrun).trans (hpreview (hcall hrun).windowed hshot)
      exact hshown.trans told_succeeded

/-- A pass tells of the library and the target it is made for. -/
theorem told_of_pass (hwindow : Windowed w) (hqueue : w.state.toEncodeQueue = [])
    (library target : Str) :
    Told engine.platform (library, target) w (Each.left (engine.doEncode library target w)) := by
  rw [doEncode_of_empty engine hqueue]
  refine Each.left_forM (P := fun v => Told engine.platform (library, target) w v) ?_
    (.of_calls hwindow rfl ⟨[], by simp, by simp⟩ (.refl _ _))
  intro item hitem v hv
  have hkey : item.key = (library, target) := by
    rcases List.mem_map.1 hitem with ⟨x, -, rfl⟩
    rfl
  have hturn := told_of_turn habs hv.windowed (turn_spec engine item v)
  rw [hkey] at hturn
  exact hv.trans hturn

end Turn

end Engine

/-! ## Registries -/

/-- What there is to remember: the libraries and targets that were asked for, and the events since. -/
structure Memory where
  requested : List Key
  events : List Event

/-- An engine of the registry. -/
structure Kept {κ : Type} (transcoder : κ) (events : List Event) (entry : Key × Registered κ) :
    Prop where
  transcoder : entry.2.transcoder = transcoder
  library : entry.2.state.library = entry.1.1
  target : entry.2.state.target = none
  queue : entry.2.state.toEncodeQueue = []
  finished : entry.2.state.encodedQueue.map EncodingItem.unstamped =
    last ItemsInFinishedList (recordsOf entry.1 events)

structure Remembers {κ : Type} (transcoder : κ) (memory : Memory) (r : Registry κ) : Prop where
  keys : r.entries.map Prod.fst = memory.requested.eraseDups
  kept : ∀ entry ∈ r.entries, Kept transcoder memory.events entry
  others : ∀ key, key ∉ memory.requested → recordsOf key memory.events = []

variable {κ τ : Type} {transcoder : κ} {memory : Memory} {r : Registry κ}

theorem remembers_empty : Remembers transcoder ⟨[], []⟩ (.empty : Registry κ) :=
  ⟨rfl, by simp [Registry.empty], fun _ _ => rfl⟩

/-- Asking for an engine. -/
theorem Remembers.add (h : Remembers transcoder memory r) (library target : Str) :
    Remembers transcoder { memory with requested := memory.requested ++ [(library, target)] }
      (EngineManager.addEngine r library target transcoder).2 := by
  have hmem : ∀ key, key ∈ r.entries.map Prod.fst ↔ key ∈ memory.requested := by
    intro key
    rw [h.keys, List.mem_eraseDups]
  have hothers : ∀ key, key ∉ memory.requested ++ [(library, target)] →
      recordsOf key memory.events = [] := by
    intro key hkey
    exact h.others key fun hold => hkey (List.mem_append_left _ hold)
  unfold EngineManager.addEngine
  split
  · next engine hfind =>
      have hthere : (library, target) ∈ memory.requested := by
        rw [← hmem]
        by_contra hnot
        have hnone : r.find? (library, target) = none := by
          refine List.lookup_eq_none_iff.2 ?_
          intro entry hentry
          have hne : (library, target) ≠ entry.1 := fun heq => hnot (heq ▸ List.mem_map_of_mem hentry)
          simpa using hne
        have hsome : r.find? (library, target) = some engine := hfind
        rw [hnone] at hsome
        cases hsome
      refine ⟨?_, h.kept, hothers⟩
      rw [h.keys, List.eraseDups_append]
      simp [List.removeAll, hthere]
  · next hfind =>
      have hnew : (library, target) ∉ memory.requested := by
        rw [← hmem]
        exact Registry.find?_eq_none hfind
      refine ⟨?_, ?_, hothers⟩
      · rw [List.eraseDups_append, ← h.keys]
        simp [Registry.add, EngineManager.engineKey, List.removeAll, hnew, List.eraseDups_cons]
      · intro entry hentry
        rcases List.mem_append.1 hentry with hold | hadded
        · exact h.kept entry hold
        · rw [List.mem_singleton.1 hadded]
          -- nothing was told of a library and a target that nobody had asked for
          refine ⟨rfl, rfl, rfl, rfl, ?_⟩
          have hnone := h.others _ hnew
          simp only [EngineManager.engineKey]
          rw [hnone]
          rfl

/-! ## The polling loop -/

namespace EngineManager

open Engine

/-- What stretches of polling add: events that the registry remembers, and previews. -/
structure Continues (platform : Platform) (transcoder : κ) (memory : Memory) (p q : Polling κ τ) :
    Prop where
  remembers : ∃ events, q.world.events = p.world.events ++ events ∧
    Remembers transcoder { memory with events := memory.events ++ events } q.engines
  settings : platform.Grows p.world.settings q.world.settings

namespace Continues

variable {platform : Platform} {p q s : Polling κ τ}

theorem refl (platform : Platform) (h : Remembers transcoder memory p.engines) :
    Continues platform transcoder memory p p :=
  ⟨⟨[], by simp, by simpa using h⟩, .refl _ _⟩

/-- Looks at `$do_quit` do nothing else. -/
theorem looks (platform : Platform) (h : Remembers transcoder memory p.engines) (looks : Nat) :
    Continues platform transcoder memory p { p with looks := looks } :=
  ⟨⟨[], by simp, by simpa using h⟩, .refl _ _⟩

theorem trans (h : Continues platform transcoder memory p q)
    (h' : ∀ events, Remembers transcoder { memory with events := events } q.engines →
      Continues platform transcoder { memory with events := events } q s) :
    Continues platform transcoder memory p s := by
  rcases h.remembers with ⟨events, heq, hremembers⟩
  have hrest := h' _ hremembers
  rcases hrest.remembers with ⟨events', heq', hremembers'⟩
  refine ⟨⟨events ++ events', by rw [heq', heq, List.append_assoc], ?_⟩,
    h.settings.trans hrest.settings⟩
  rwa [List.append_assoc] at hremembers'

end Continues

theorem eq_of_key {entry entry' : Key × Registered κ} (h : entry ∈ r.entries)
    (h' : entry' ∈ r.entries) (hkey : entry.1 = entry'.1) : entry = entry' :=
  List.inj_on_of_nodup_map r.nodup h h' hkey

/-- The other engines are as they were. -/
theorem mem_leave {p : Polling κ τ} {entry : Key × Registered κ} (h : entry ∈ p.engines.entries)
    {key : Key} (hne : entry.1 ≠ key) (w : World τ) : entry ∈ (p.leave key w).engines.entries := by
  refine List.mem_map.2 ⟨entry, h, ?_⟩
  rw [if_neg hne]

variable {engineOf : κ → Engine τ} {platform : Platform}
  (habs : File.isAbsolute platform.settingsPath = true)
  (hplatform : ∀ k, (engineOf k).platform = platform)

include habs hplatform

theorem continues_round {p : Polling κ τ} (h : Remembers transcoder memory p.engines)
    {entry : Key × Registered κ} (hentry : entry ∈ p.engines.entries) :
    Continues platform transcoder memory p (Each.left (round engineOf entry p)) ∧
      ∀ other ∈ p.engines.entries, other.1 ≠ entry.1 →
        other ∈ (Each.left (round engineOf entry p)).engines.entries := by
  rcases @left_round κ τ engineOf entry p with ⟨-, hquit⟩ | hleft
  · rw [hquit]
    exact ⟨.refl platform h, fun other hother _ => hother⟩
  · have hkept := h.kept entry hentry
    -- what is remembered is cut already, as the list of the state is
    have hwindow : Windowed (p.worldOf entry.2.state) := by
      have hlength := congrArg List.length hkept.finished
      rw [List.length_map] at hlength
      have hle : entry.2.state.encodedQueue.length ≤ ItemsInFinishedList := by
        rw [hlength, last, List.length_drop]
        omega
      exact hle
    have hpass := @told_of_pass τ (engineOf entry.2.transcoder) _
      (by rw [hplatform]; exact habs) hwindow hkept.queue entry.1.1 entry.1.2
    rw [hleft]
    generalize Each.left ((engineOf entry.2.transcoder).doEncode entry.1.1 entry.1.2
      (p.worldOf entry.2.state)) = w at hpass ⊢
    rw [hplatform] at hpass
    rcases hpass.events with ⟨events, heq, hothers, hlist⟩
    refine ⟨⟨⟨events, heq, ?_, ?_, ?_⟩, hpass.settings⟩, ?_⟩
    · exact (keys_leave { p with looks := p.looks - 1 } entry.1 w).trans h.keys
    · intro new hnew
      rcases List.mem_map.1 hnew with ⟨old, hold, rfl⟩
      -- the entry of this engine is the new one, all others are the old ones
      by_cases hkey : old.1 = entry.1
      · have hsame := eq_of_key hold hentry hkey
        subst hsame
        rw [if_pos rfl]
        refine ⟨hkept.transcoder, hpass.library.trans hkept.library,
          hpass.target.trans hkept.target, hpass.queue.trans hkept.queue, ?_⟩
        rw [recordsOf_append, ← last_append_last, ← hkept.finished]
        exact hlist
      · rw [if_neg hkey]
        have hold' := h.kept old hold
        refine ⟨hold'.transcoder, hold'.library, hold'.target, hold'.queue, ?_⟩
        rw [recordsOf_append, hothers old.1 hkey, List.append_nil]
        exact hold'.finished
    · intro key hkey
      -- the pass made records for a key of the registry only
      have hne : key ≠ (entry.1.1, entry.1.2) := by
        rintro rfl
        have hmem : entry.1 ∈ p.engines.entries.map Prod.fst := List.mem_map_of_mem hentry
        rw [h.keys, List.mem_eraseDups] at hmem
        exact hkey hmem
      rw [recordsOf_append, h.others key hkey, hothers key hne, List.append_nil]
    · intro other hother hne
      exact mem_leave (p := { p with looks := p.looks - 1 }) hother hne w

/-- A loop over engines, each of which is as it was in the registry when its round comes. -/
theorem continues_loop (entries : List (Key × Registered κ)) :
    ∀ {p : Polling κ τ} {memory : Memory}, Remembers transcoder memory p.engines →
      (entries.map Prod.fst).Nodup → (∀ entry ∈ entries, entry ∈ p.engines.entries) →
      Continues platform transcoder memory p (Each.left (entries.forM (round engineOf) p)) := by
  induction entries with
  | nil =>
      intro p memory h _ _
      exact .refl platform h
  | cons entry entries ih =>
      intro p memory h hnodup hmem
      rw [List.map_cons, List.nodup_cons] at hnodup
      have hround := continues_round habs hplatform h (hmem entry (by simp))
      rw [Each.forM_cons]
      cases hrun : round engineOf entry p with
      | error e q =>
          rw [hrun] at hround
          exact hround.1
      | ok u q =>
          rw [hrun] at hround
          refine hround.1.trans ?_
          intro events hq
          refine ih hq hnodup.2 ?_
          intro other hother
          refine hround.2 other (hmem other (by simp [hother])) ?_
          intro hsame
          exact hnodup.1 (hsame ▸ List.mem_map_of_mem hother)

/-- Any number of rounds of the polling loop, up to an exception. -/
theorem continues_poll (n : Nat) :
    ∀ {p : Polling κ τ} {memory : Memory}, Remembers transcoder memory p.engines →
      Continues platform transcoder memory p
        (Each.left (pollDirectoryAndEncode engineOf n p)) := by
  induction n with
  | zero =>
      intro p memory h
      exact .refl platform h
  | succ n ih =>
      intro p memory h
      by_cases hlooks : p.looks = 0
      · rw [poll_of_quit hlooks]
        exact .refl platform h
      · rw [poll_succ hlooks]
        refine (Continues.looks platform h (p.looks - 1)).trans ?_
        intro events hp
        have hsweep := continues_loop habs hplatform p.engines.entries
          (p := { p with looks := p.looks - 1 }) hp p.engines.nodup fun _ hentry => hentry
        rw [← @sweep_eq κ τ engineOf { p with looks := p.looks - 1 }] at hsweep
        cases hrun : sweep engineOf { p with looks := p.looks - 1 } with
        | error e q =>
            rw [hrun] at hsweep
            exact hsweep
        | ok u q =>
            rw [hrun] at hsweep
            refine hsweep.trans ?_
            intro events' hq
            simp only
            split
            · -- the nap
              exact (Continues.looks platform hq 0).trans fun _ hq' => ih hq'
            · exact ih hq

end EngineManager

end Yikes
