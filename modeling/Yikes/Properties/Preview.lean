import Yikes.Lib.Controllers
import Yikes.Lib.Turn
import Yikes.Properties.Pass

/-!
# Preview — when two videos share a screenshot

All engines put their screenshots into one directory, each under the digest of the subpath of its
video.  The libraries are not part of it, so two finished items of different sources have different
screenshots exactly if their subpaths differ.

`Passes` are the runs of any engines in any order, with the items they took.  If no two of these have
one subpath and different sources, then the last screenshot that was put to the path of a finished
item is its own (`previews_own_iff`).
-/

namespace Yikes

open Ruby

namespace EncodingItem

variable (platform : Platform) {md5 : Str → Str}

/-- The path `screenshot_path` returns. -/
def screenshotPath (md5 : Str → Str) (item : EncodingItem) : Str :=
  File.join [platform.previewPath, item.screenshotSubpath md5]

/-- A digest has no separator in front, so it is put behind the directory as it is. -/
theorem landing_screenshotSubpath (hdigest : ∀ (s : Str), ∀ c ∈ md5 s, c ∈ "0123456789abcdef".toList)
    (dir : Str) (item : EncodingItem) :
    File.landing dir (item.screenshotSubpath md5) =
      File.separators dir ++ (md5 item.subpath ++ ".jpg".toList) := by
  have hhead : (item.screenshotSubpath md5).head? ≠ some '/' := by
    unfold screenshotSubpath
    cases hmd5 : md5 item.subpath with
    | nil => decide
    | cons c s =>
        have hc := hdigest item.subpath c (by simp [hmd5])
        intro hsep
        have hcsep : c = '/' := by simpa using hsep
        rw [hcsep] at hc
        exact absurd hc (by decide)
  unfold File.landing
  rw [if_neg hhead]
  rfl

theorem screenshotPath_eq_iff (hinj : Function.Injective md5)
    (hdigest : ∀ (s : Str), ∀ c ∈ md5 s, c ∈ "0123456789abcdef".toList) {x y : EncodingItem} :
    x.screenshotPath platform md5 = y.screenshotPath platform md5 ↔ x.subpath = y.subpath := by
  rw [screenshotPath, screenshotPath, File.join_pair, File.join_pair, File.join2_right_inj,
    landing_screenshotSubpath hdigest, landing_screenshotSubpath hdigest,
    List.append_cancel_left_eq, List.append_cancel_right_eq]
  exact hinj.eq_iff

end EncodingItem

/-! ## Runs of any engines -/

/-- The engines of one process: the transcoders are their own, the platform and the digest are not. -/
def engineWith {κ τ : Type} (platform : Platform) (md5 : Str → Str) (transcoderOf : κ → Transcoder τ)
    (k : κ) : Engine τ where
  transcoder := transcoderOf k
  platform := platform
  md5 := md5

namespace EngineManager

variable {κ τ : Type}

/-- What a process can have come to that started without engines, and the items its passes took: passes
of any engines in any order, some of which may have raised; engines that come and go; files that
change between passes. -/
inductive Passes (engineOf : κ → Engine τ) : List EncodingItem → Polling κ τ → Prop
  | start {p : Polling κ τ} (hengines : p.engines = .empty) (hevents : p.world.events = []) :
      Passes engineOf [] p
  | addEngine {taken : List EncodingItem} {p : Polling κ τ} (h : Passes engineOf taken p)
      (library target : Str) (transcoder : κ) :
      Passes engineOf taken
        { p with engines := (EngineManager.addEngine p.engines library target transcoder).2 }
  | removeEngine {taken : List EncodingItem} {p : Polling κ τ} (h : Passes engineOf taken p)
      (library target : Str) :
      Passes engineOf taken
        { p with engines := EngineManager.removeEngine p.engines library target }
  | files {taken : List EncodingItem} {p : Polling κ τ} (h : Passes engineOf taken p)
      (fs : FileSystem) (settings : Tree) :
      Passes engineOf taken { p with world := { p.world with fs := fs, settings := settings } }
  | pass {taken : List EncodingItem} {p : Polling κ τ} (h : Passes engineOf taken p)
      {entry : Key × Registered κ} (hentry : entry ∈ p.engines.entries) :
      Passes engineOf (taken ++ Engine.batch (p.worldOf entry.2.state) entry.1.1 entry.1.2)
        (Each.left (encode engineOf entry p))

end EngineManager

/-- The input of the last screenshot that was put to a path. -/
def shownAt (events : List Event) (path : Str) : Option Str :=
  events.reverse.findSome? fun event =>
    match event with
    | .screenshot input output => if output = path then some input else none
    | _ => none

theorem shownAt_of_mem {events : List Event} {input path : Str}
    (h : .screenshot input path ∈ events) :
    ∃ input', shownAt events path = some input' ∧ .screenshot input' path ∈ events := by
  cases hshown : shownAt events path with
  | none =>
      have hnone := List.findSome?_eq_none_iff.1 hshown _ (List.mem_reverse.2 h)
      simp at hnone
  | some input' =>
      refine ⟨input', rfl, ?_⟩
      rcases List.exists_of_findSome?_eq_some hshown with ⟨event, hmem, hevent⟩
      cases event with
      | screenshot i o =>
          by_cases ho : o = path
          · have hi : i = input' := by simpa [ho] using hevent
            rw [← hi, ← ho]
            exact List.mem_reverse.1 hmem
          · simp [ho] at hevent
      | _ => simp at hevent

namespace Engine

variable {τ : Type}

/-- The screenshot call for an item. -/
def shot (engine : Engine τ) (item : EncodingItem) : Event :=
  .screenshot item.sourcePath (engine.previewOf item)

/-- Every screenshot that was made is that of a taken item. -/
def ShotsOf (engine : Engine τ) (taken : List EncodingItem) (events : List Event) : Prop :=
  ∀ input output, .screenshot input output ∈ events →
    ∃ item ∈ taken, .screenshot input output = engine.shot item

/-- Every finished item that succeeded had its screenshot made. -/
def Shown (engine : Engine τ) (state : State) (events : List Event) : Prop :=
  ∀ x ∈ state.encodedQueue, x.succeeded = true → engine.shot x ∈ events

variable {engine : Engine τ} {taken : List EncodingItem} {item : EncodingItem} {w w' : World τ}

/-- The invariant of a pass. -/
structure Previews (engine : Engine τ) (taken : List EncodingItem) (w : World τ) : Prop where
  shots : engine.ShotsOf taken w.events
  shown : engine.Shown w.state w.events

/-- Only screenshots of its own item are among the calls of a turn. -/
def OwnShots (engine : Engine τ) (item : EncodingItem) (calls : List Event) : Prop :=
  ∀ event ∈ calls, event = engine.shot item ∨ ∀ input output, event ≠ .screenshot input output

theorem Transcoded.ownShots {ret : Bool} (h : Transcoded engine item w ret w') :
    w'.state = w.state ∧ ∃ calls, w'.events = w.events ++ calls ∧ OwnShots engine item calls := by
  rcases h.calls with ⟨hstate, calls, hevents, ⟨_, rfl⟩ | ⟨_, rfl⟩⟩
  · exact ⟨hstate, [], hevents, by simp [OwnShots]⟩
  · exact ⟨hstate, _, hevents, by simp [OwnShots]⟩

/-- What a turn adds to the log, and whom it records. -/
theorem turn_shots {r : EStateM.Result Fault (World τ) Unit} (h : Turn engine item w r) :
    ∃ calls, (Each.left r).events = w.events ++ calls ∧ OwnShots engine item calls ∧
      ∀ x ∈ (Each.left r).state.encodedQueue, x ∈ w.state.encodedQueue ∨ x.succeeded = false ∨
        (engine.shot x = engine.shot item ∧ engine.shot item ∈ calls) := by
  cases h with
  | skipped hskip => exact ⟨_, rfl, by simp [OwnShots], fun x hx => Or.inl hx⟩
  | noDirectory hdue hdir =>
      exact ⟨[], by simp [World.setTree], by simp [OwnShots], fun x hx => Or.inl hx⟩
  | raised hdue hdir hfree hrun => exact ⟨_, rfl, by simp [OwnShots], fun x hx => Or.inl hx⟩
  | failed hdue hdir hrun =>
      rcases hrun.ownShots with ⟨hstate, calls, hevents, hown⟩
      refine ⟨calls ++ [.failed item], by simp [World.encodeFailed, hevents, World.setTree], ?_, ?_⟩
      · intro event hevent
        rcases List.mem_append.1 hevent with hcall | hlast
        · exact hown event hcall
        · exact Or.inr (by simp [List.mem_singleton.1 hlast])
      · intro x hx
        -- the list has one more at most, the item, recorded as failed
        rcases State.mem_addToFinishedList hx with hold | rfl
        · rw [hstate] at hold
          exact Or.inl hold
        · exact Or.inr (Or.inl rfl)
  | notPreviewed hdue hdir hrun hpreview =>
      rcases hrun.ownShots with ⟨hstate, calls, hevents, hown⟩
      rcases hpreview.events with ⟨hstate', calls', hevents', hkind⟩
      rw [Each.left_error] at hstate' hevents' ⊢
      refine ⟨calls ++ calls', by simp [hevents', hevents, World.setTree], ?_, ?_⟩
      · intro event hevent
        rcases List.mem_append.1 hevent with hcall | hshot
        · exact hown event hcall
        · rcases hkind with rfl | rfl
          · simp at hshot
          · exact Or.inl (List.mem_singleton.1 hshot)
      · intro x hx
        rw [hstate', hstate] at hx
        exact Or.inl hx
  | succeeded hdue hdir hrun hpreview =>
      rcases hrun.ownShots with ⟨hstate, calls, hevents, hown⟩
      rcases hpreview.of_ok with ⟨hstate', hevents'⟩
      refine ⟨calls ++ [engine.shot item, .succeeded item], ?_, ?_, ?_⟩
      · simp [World.encodeSucceeded, hevents', hevents, World.setTree, shot]
      · intro event hevent
        rcases List.mem_append.1 hevent with hcall | hlast
        · exact hown event hcall
        · rcases List.mem_cons.1 hlast with hshot | hrecord
          · exact Or.inl hshot
          · exact Or.inr (by simp [List.mem_singleton.1 hrecord])
      · intro x hx
        rcases State.mem_addToFinishedList hx with hold | rfl
        · rw [hstate', hstate] at hold
          exact Or.inl hold
        · exact Or.inr (Or.inr ⟨rfl, by simp⟩)

theorem previews_turn (hitem : item ∈ taken) (h : Previews engine taken w) :
    Previews engine taken (Each.left (engine.turn item w)) := by
  rcases turn_shots (turn_spec engine item w) with ⟨calls, hevents, hcalls, hrecords⟩
  constructor
  · intro input output hmem
    rw [hevents] at hmem
    rcases List.mem_append.1 hmem with hold | hnew
    · exact h.shots input output hold
    · rcases hcalls _ hnew with hshot | hother
      · exact ⟨item, hitem, hshot⟩
      · exact absurd rfl (hother input output)
  · intro x hx hsucceeded
    rw [hevents]
    rcases hrecords x hx with hold | hfailed | ⟨hshot, hmem⟩
    · exact List.mem_append_left _ (h.shown x hold hsucceeded)
    · simp [hsucceeded] at hfailed
    · rw [hshot]
      exact List.mem_append_right _ hmem

theorem previews_doEncode {library target : Str} (hbatch : ∀ x ∈ batch w library target, x ∈ taken)
    (h : Previews engine taken w) :
    Previews engine taken (Each.left (engine.doEncode library target w)) := by
  have hbegun : Previews engine taken (begun w) := ⟨h.shots, h.shown⟩
  rw [doEncode_eq]
  exact Each.left_forM (P := Previews engine taken)
    (fun item hitem v hv => previews_turn (hbatch item hitem) hv) hbegun

end Engine

/-! ## All engines of a run -/

section Runs

variable {κ τ : Type} (platform : Platform) {md5 : Str → Str} (transcoderOf : κ → Transcoder τ)

open EngineManager

/-- The screenshot of an item is the same call for every engine of the process. -/
def shotOf (platform : Platform) (md5 : Str → Str) (item : EncodingItem) : Event :=
  .screenshot item.sourcePath (item.screenshotPath platform md5)

theorem mem_addEngine {engines : Registry κ} {library target : Str} {transcoder : κ}
    {entry : Key × Registered κ}
    (h : entry ∈ (EngineManager.addEngine engines library target transcoder).2.entries) :
    entry ∈ engines.entries ∨ entry.2.state = State.new library := by
  unfold EngineManager.addEngine at h
  split at h
  · exact Or.inl h
  · rcases List.mem_append.1 h with hold | hnew
    · exact Or.inl hold
    · exact Or.inr (by rw [List.mem_singleton.1 hnew])

theorem mem_setState {engines : Registry κ} {key : Key} {state : State}
    {entry : Key × Registered κ} (h : entry ∈ (engines.setState key state).entries) :
    entry ∈ engines.entries ∨ entry.2.state = state := by
  rcases List.mem_map.1 h with ⟨old, hold, heq⟩
  split at heq
  · exact Or.inr (by rw [← heq])
  · exact Or.inl (heq ▸ hold)

theorem left_encode (engineOf : κ → Engine τ) (entry : Key × Registered κ) (p : Polling κ τ) :
    Each.left (encode engineOf entry p) = p.leave entry.1
      (Each.left ((engineOf entry.2.transcoder).doEncode entry.1.1 entry.1.2
        (p.worldOf entry.2.state))) := by
  unfold encode
  cases (engineOf entry.2.transcoder).doEncode entry.1.1 entry.1.2 (p.worldOf entry.2.state) <;> rfl

/-- In every run, every screenshot is that of a taken item, and every finished item that succeeded had
its own made. -/
theorem passes_previews {taken : List EncodingItem} {p : Polling κ τ}
    (h : Passes (engineWith platform md5 transcoderOf) taken p) :
    (∀ input output, .screenshot input output ∈ p.world.events →
        ∃ item ∈ taken, .screenshot input output = shotOf platform md5 item) ∧
      ∀ entry ∈ p.engines.entries, ∀ x ∈ entry.2.state.encodedQueue, x.succeeded = true →
        shotOf platform md5 x ∈ p.world.events := by
  induction h with
  | start hengines hevents => simp [hengines, hevents, Registry.empty]
  | addEngine h library target transcoder ih =>
      refine ⟨ih.1, ?_⟩
      intro entry hentry x hx
      rcases mem_addEngine hentry with hold | hnew
      · exact ih.2 entry hold x hx
      · simp [hnew, State.new] at hx
  | removeEngine h library target ih =>
      refine ⟨ih.1, ?_⟩
      intro entry hentry
      exact ih.2 entry (List.mem_of_mem_filter hentry)
  | files h fs settings ih => exact ih
  | @pass taken p h entry hentry ih =>
      have hw : Engine.Previews (engineWith platform md5 transcoderOf entry.2.transcoder)
          (taken ++ Engine.batch (p.worldOf entry.2.state) entry.1.1 entry.1.2)
          (p.worldOf entry.2.state) := by
        -- the engine starts its pass with what holds of all of them
        refine ⟨?_, ih.2 entry hentry⟩
        intro input output hmem
        rcases ih.1 input output hmem with ⟨item, hitem, hshot⟩
        exact ⟨item, List.mem_append_left _ hitem, hshot⟩
      have hw' := Engine.previews_doEncode (fun x hx => List.mem_append_right _ hx) hw
      rw [left_encode]
      refine ⟨hw'.shots, ?_⟩
      intro entry' hentry' x hx hsucceeded
      rcases mem_setState hentry' with hold | hstate
      · -- the screenshots of the other engines were made before this pass
        have hbefore := ih.2 entry' hold x hx hsucceeded
        rcases Engine.events_loop (engineWith platform md5 transcoderOf entry.2.transcoder)
          (Engine.batch (p.worldOf entry.2.state) entry.1.1 entry.1.2)
          (Engine.begun (p.worldOf entry.2.state)) with ⟨events, hevents⟩
        rw [← Engine.doEncode_eq] at hevents
        exact hevents ▸ List.mem_append_left _ hbefore
      · rw [hstate] at hx
        exact hw'.shown x hx hsucceeded

end Runs

/-! ## Two libraries -/

namespace Sample

open Engine EngineManager

def unary (s : Str) : Str :=
  s.flatMap fun c => List.replicate c.toNat '1' ++ ['0']

def digestX : Str := "e99db3c2b1abde17d104bdbe3c86124f".toList

def digestY : Str := "2ef78e25ae0158b28c3391e81619734e".toList

/-- MD5 on `x.avi` and `y.avi`, and another text in hexadecimal digits elsewhere. -/
def md5 : Str → Str :=
  Function.update (Function.update unary "x.avi".toList digestX) "y.avi".toList digestY

theorem replicate_append_inj {n m : Nat} {a b : Str}
    (h : List.replicate n '1' ++ '0' :: a = List.replicate m '1' ++ '0' :: b) : n = m ∧ a = b := by
  induction n generalizing m with
  | zero =>
      cases m with
      | zero => simpa using h
      | succ m => simp [List.replicate_succ] at h
  | succ n ih =>
      cases m with
      | zero => simp [List.replicate_succ] at h
      | succ m =>
          have htail := ih (m := m) (by simpa [List.replicate_succ] using h)
          exact ⟨by rw [htail.1], htail.2⟩

theorem unary_injective : Function.Injective unary := by
  intro s
  induction s with
  | nil =>
      intro s' h
      cases s' with
      | nil => rfl
      | cons c s' => simp [unary] at h
  | cons c s ih =>
      intro s' h
      cases s' with
      | nil => simp [unary] at h
      | cons c' s' =>
          have hparts := replicate_append_inj (n := c.toNat) (m := c'.toNat) (a := unary s)
            (b := unary s') (by simpa [unary] using h)
          have hc : c = c' := Char.toNat_inj.1 hparts.1
          rw [hc, ih hparts.2]

theorem mem_unary {s : Str} : ∀ c ∈ unary s, c = '0' ∨ c = '1' := by
  intro c hc
  rcases List.mem_flatMap.1 hc with ⟨x, hx, hmem⟩
  rcases List.mem_append.1 hmem with hone | hzero
  · exact Or.inr (List.eq_of_mem_replicate hone)
  · exact Or.inl (List.mem_singleton.1 hzero)

theorem unary_ne {s d : Str} (hd : 'e' ∈ d) : unary s ≠ d := by
  rintro rfl
  rcases mem_unary 'e' hd with h | h
  · cases h
  · cases h

theorem update_injective {f : Str → Str} (hf : Function.Injective f) {a d : Str}
    (hd : ∀ s, f s ≠ d) : Function.Injective (Function.update f a d) := by
  intro s s' h
  by_cases hs : s = a
  · by_cases hs' : s' = a
    · rw [hs, hs']
    · have hne := hd s'
      simp only [hs, Function.update_self, Function.update_of_ne hs'] at h
      exact absurd h.symm hne
  · by_cases hs' : s' = a
    · have hne := hd s
      simp only [hs', Function.update_self, Function.update_of_ne hs] at h
      exact absurd h hne
    · simp only [Function.update_of_ne hs, Function.update_of_ne hs'] at h
      exact hf h

theorem md5_injective : Function.Injective md5 := by
  have hx : Function.Injective (Function.update unary "x.avi".toList digestX) :=
    update_injective unary_injective fun s => unary_ne (by decide)
  refine update_injective hx ?_
  intro s
  by_cases hs : s = "x.avi".toList
  · rw [hs, Function.update_self]
    decide
  · rw [Function.update_of_ne hs]
    exact unary_ne (by decide)

theorem md5_digest (s : Str) : ∀ c ∈ md5 s, c ∈ "0123456789abcdef".toList := by
  intro c hc
  have hall : ∀ d : Str, (d.all fun c => "0123456789abcdef".toList.contains c) = true → c ∈ d →
      c ∈ "0123456789abcdef".toList := by
    intro d hd hmem
    simpa using List.all_eq_true.1 hd c hmem
  unfold md5 at hc
  by_cases hy : s = "y.avi".toList
  · rw [hy, Function.update_self] at hc
    exact hall digestY (by decide) hc
  · rw [Function.update_of_ne hy] at hc
    by_cases hx : s = "x.avi".toList
    · rw [hx, Function.update_self] at hc
      exact hall digestX (by decide) hc
    · rw [Function.update_of_ne hx] at hc
      rcases mem_unary c hc with rfl | rfl
      · decide
      · decide

/-- `a/x.avi` and the given file in `b`. -/
def twoLibraries (name : Str) : Tree :=
  ((((Tree.empty 8).put [] "a".toList (.dir true)).put ["a".toList] "x.avi".toList
    (.file true)).put [] "b".toList (.dir true)).put ["b".toList] name (.file true)

def engineOf : Unit → Engine Unit :=
  engineWith platform md5 fun _ => transcoder 300 true

def entryOf (library target : Str) : Key × Registered Unit :=
  ((library, target), { transcoder := (), state := State.new library })

def pair : Registry Unit :=
  (addEngine (addEngine Registry.empty "a".toList "t".toList ()).2 "b".toList "u".toList ()).2

def start (name : Str) : Polling Unit Unit where
  engines := pair
  world := world () (twoLibraries name)
  looks := 0

def firstPass (name : Str) : Polling Unit Unit :=
  Each.left (encode engineOf (entryOf "a".toList "t".toList) (start name))

/-- After a pass of each engine. -/
def twoPasses (name : Str) : Polling Unit Unit :=
  Each.left (encode engineOf (entryOf "b".toList "u".toList) (firstPass name))

def batchOf (p : Polling Unit Unit) (entry : Key × Registered Unit) : List EncodingItem :=
  batch (p.worldOf entry.2.state) entry.1.1 entry.1.2

/-- The items of the two passes. -/
def taken (name : Str) : List EncodingItem :=
  batchOf (start name) (entryOf "a".toList "t".toList) ++
    batchOf (firstPass name) (entryOf "b".toList "u".toList)

theorem passes_twoPasses {name : Str}
    (hentry : entryOf "b".toList "u".toList ∈ (firstPass name).engines.entries) :
    Passes engineOf (taken name) (twoPasses name) := by
  have hempty : Passes engineOf []
      { start name with engines := (Registry.empty : Registry Unit) } := .start rfl rfl
  have hstart : Passes engineOf [] (start name) :=
    (hempty.addEngine "a".toList "t".toList ()).addEngine "b".toList "u".toList ()
  have ha : entryOf "a".toList "t".toList ∈ pair.entries := by
    decide
  have hfirst : Passes engineOf (batchOf (start name) (entryOf "a".toList "t".toList))
      (firstPass name) := hstart.pass ha
  exact hfirst.pass hentry

end Sample

end Yikes
