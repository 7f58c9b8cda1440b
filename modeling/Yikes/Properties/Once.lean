import Mathlib.Data.List.ReduceOption
import Yikes.Properties.Converge
import Yikes.Properties.Frame
import Yikes.Properties.Raise
import Yikes.Properties.Rest
import Yikes.Ruby.Ways

/-!
# Once — every output is made once

A `History` is any sequence of passes on the same files, with any engines: those of one polling loop, of
several runs of the program, in the foreground or the background, and each of them may be ended by an
exception.  From one world of it to a later one every call of the transcoder has made one file, or none
because its output could not be made; no two calls made the same file, and no other file came into being
(`OneEach`).
-/

namespace Yikes

open Ruby

namespace Engine

variable {τ : Type}

/-- The outputs that `transcode` was called for. -/
def outputsIn (events : List Event) : List Str :=
  events.filterMap fun
    | .transcode _ output => some output
    | _ => none

/-- Where there is no output and none can be made, `transcode` leaves the files alone. -/
def Spares (tc : Transcoder τ) : Prop :=
  ∀ (input output : Str) (fs : FileSystem) (s : τ), fs.exist? output = false →
    fs.tree.creates output = none → (Each.left (tc.transcode input output (fs, s))).1 = fs

/-- What a call for `output` made between two trees: the file the path leads to now, or nothing, since
on the way from one to the other no file could be made for it. -/
inductive MadeFor (t t' : Tree) (output : Str) : Option Loc → Prop
  | file {loc : Loc} (hstat : t'.stat output = some loc) : MadeFor t t' output (some loc)
  | barred {u : Tree} (hbefore : Tree.Keeps t u) (hafter : Tree.Keeps u t')
      (hfree : u.stat output = none) (hbarred : u.creates output = none) : MadeFor t t' output none

/-- Every call made one file, if its output could be made, and no other file is new. -/
structure OneEach (w w' : World τ) : Prop where
  keeps : Tree.Keeps w.fs.tree w'.fs.tree
  made : ∃ events locs, w'.events = w.events ++ events ∧
    List.Forall₂ (MadeFor w.fs.tree w'.fs.tree) (outputsIn events) locs ∧
    locs.reduceOption.Nodup ∧ ∀ loc, New w.fs w'.fs loc ↔ some loc ∈ locs

/-- A run of passes; what an engine does not share with the others may be anything between two of
them. -/
inductive History (w : World τ) : World τ → Prop
  | refl : History w w
  | pass {v v' : World τ} (hbefore : History w v) (engine : Engine τ)
      (hwrites : Writes engine.transcoder) (hspares : Spares engine.transcoder) (library target : Str)
      (hfs : v'.fs = v.fs) (hevents : v'.events = v.events) (hqueue : v'.state.toEncodeQueue = []) :
      History w (Each.left (engine.doEncode library target v'))

/-! ## Stretches -/

theorem outputsIn_append (events events' : List Event) :
    outputsIn (events ++ events') = outputsIn events ++ outputsIn events' :=
  List.filterMap_append

theorem MadeFor.mono {t t' u u' : Tree} {output : Str} {made : Option Loc}
    (h : MadeFor t t' output made) (hbefore : Tree.Keeps u t) (hafter : Tree.Keeps t' u') :
    MadeFor u u' output made := by
  cases h with
  | file hstat => exact .file (hafter.stat hstat)
  | barred hfirst hlast hfree hbarred =>
      exact .barred (hbefore.trans hfirst) (hlast.trans hafter) hfree hbarred

namespace OneEach

variable {w w' w'' : World τ}

/-- Nothing but directories was made, and nothing called. -/
theorem of_noFile (hkeeps : Tree.Keeps w.fs.tree w'.fs.tree)
    (hnone : ∀ loc r, w'.fs.tree.node? loc = some (.file r) →
      w.fs.tree.node? loc = some (.file r))
    (hevents : ∃ events, w'.events = w.events ++ events ∧ outputsIn events = []) :
    OneEach w w' := by
  rcases hevents with ⟨events, heq, hnil⟩
  refine ⟨hkeeps, events, [], heq, by rw [hnil]; exact .nil, by simp, ?_⟩
  intro loc
  constructor
  · rintro ⟨⟨r, hfile⟩, hnew⟩
    exact absurd (hnone loc r hfile) (hnew r)
  · intro h
    cases h

theorem refl (w : World τ) : OneEach w w :=
  of_noFile (Tree.Keeps.refl _) (fun _ _ h => h) ⟨[], by simp, rfl⟩

/-- What is new over both stretches was new over one of them. -/
theorem new_iff (h : Tree.Keeps w.fs.tree w'.fs.tree) (h' : Tree.Keeps w'.fs.tree w''.fs.tree)
    (loc : Loc) : New w.fs w''.fs loc ↔ New w.fs w'.fs loc ∨ New w'.fs w''.fs loc := by
  constructor
  · rintro ⟨⟨r, hfile⟩, hnew⟩
    by_cases hbetween : ∃ r', w'.fs.tree.node? loc = some (.file r')
    · exact Or.inl ⟨hbetween, hnew⟩
    · exact Or.inr ⟨⟨r, hfile⟩, fun r' hfile' => hbetween ⟨r', hfile'⟩⟩
  · rintro (⟨⟨r, hfile⟩, hnew⟩ | ⟨hfile, hnew⟩)
    · exact ⟨⟨r, h'.file hfile⟩, hnew⟩
    · exact ⟨hfile, fun r hold => hnew r (h.file hold)⟩

theorem trans (h : OneEach w w') (h' : OneEach w' w'') : OneEach w w'' := by
  rcases h.made with ⟨events, locs, heq, hmade, hnodup, hnew⟩
  rcases h'.made with ⟨events', locs', heq', hmade', hnodup', hnew'⟩
  refine ⟨h.keeps.trans h'.keeps, events ++ events', locs ++ locs', ?_, ?_, ?_, ?_⟩
  · rw [heq', heq, List.append_assoc]
  · rw [outputsIn_append]
    -- the paths of the first stretch still lead to its files
    exact List.rel_append (hmade.imp fun _ _ hfor => hfor.mono (.refl _) h'.keeps)
      (hmade'.imp fun _ _ hfor => hfor.mono h.keeps (.refl _))
  · rw [List.reduceOption_append]
    refine List.nodup_append.2 ⟨hnodup, hnodup', ?_⟩
    rintro loc hloc _ hloc' rfl
    rw [List.reduceOption_mem_iff] at hloc hloc'
    rcases (hnew loc).2 hloc with ⟨⟨r, hfile⟩, _⟩
    exact ((hnew' loc).2 hloc').2 r hfile
  · intro loc
    rw [new_iff h.keeps h'.keeps, hnew, hnew', List.mem_append]

end OneEach

/-! ## One turn -/

section Turn

variable {engine : Engine τ} {item : EncodingItem} {w w' : World τ}

theorem outputsIn_previewed {r : EStateM.Result Fault (World τ) Unit}
    (h : Previewed engine item w r) :
    ∃ events, (Each.left r).events = w.events ++ events ∧ outputsIn events = [] := by
  rcases h.events with ⟨_, calls, hcalls, rfl | rfl⟩
  · exact ⟨[], hcalls, rfl⟩
  · exact ⟨_, hcalls, rfl⟩

/-- Making directories makes no file. -/
theorem oneEach_setTree {t : Tree} {path : Str}
    (h : w.fs.tree.mkdir_p path = .ok t ∨ ∃ e, w.fs.tree.mkdir_p path = .error (e, t)) :
    OneEach w (w.setTree t) := by
  refine .of_noFile (Tree.keeps_mkdir_p h) ?_ ⟨[], by simp [World.setTree], rfl⟩
  intro loc r hfile
  exact Tree.file_of_mkdir_p h hfile

variable (hwrites : Writes engine.transcoder) (hspares : Spares engine.transcoder)

include hwrites hspares

/-- A call of the transcoder makes its output, if it can be made. -/
theorem oneEach_call (hfree : w.fs.exist? item.targetPath = false) :
    OneEach w ((w.note (.transcode item.sourcePath item.targetPath)).leave
      (Each.left (engine.transcoder.transcode item.sourcePath item.targetPath
        (w.fs, w.transcoder)))) := by
  have hnone : w.fs.tree.stat item.targetPath = none := by simpa [FileSystem.exist?] using hfree
  cases hcreates : w.fs.tree.creates item.targetPath with
  | some loc =>
      rcases hwrites.transcode item.sourcePath item.targetPath w.fs w.transcoder loc hcreates with
        ⟨bytes, s', _, hok⟩
      rw [hok, Each.left_ok]
      have hspec := FileSystem.write_spec bytes hcreates
      have honly := w.fs.writesOnly_write item.targetPath bytes
      rcases Tree.creates_spec hcreates with ⟨dir, name, _, _, _, hplace⟩
      refine ⟨hspec.1, [.transcode item.sourcePath item.targetPath], [some loc], rfl,
        .cons (.file hspec.2.1) .nil, by simp, ?_⟩
      intro loc'
      rw [List.mem_singleton, Option.some_inj]
      constructor
      · -- what is new is where the output leads
        rintro ⟨⟨r, hnode⟩, hnew⟩
        have hstat := honly.created hnone hnode hnew
        rw [hspec.2.1] at hstat
        exact (Option.some.inj hstat).symm
      · rintro rfl
        refine ⟨⟨true, hspec.2.2⟩, ?_⟩
        intro r hfile
        rw [hplace] at hfile
        cases hfile
  | none =>
      have hsame := hspares item.sourcePath item.targetPath w.fs w.transcoder hfree hcreates
      generalize Each.left (engine.transcoder.transcode item.sourcePath item.targetPath
        (w.fs, w.transcoder)) = s at hsame ⊢
      rcases s with ⟨fs, s⟩
      cases hsame
      refine ⟨.refl _, [.transcode item.sourcePath item.targetPath], [none], rfl,
        .cons (.barred (.refl _) (.refl _) hnone hcreates) .nil, by simp, ?_⟩
      intro loc
      constructor
      · rintro ⟨⟨r, hfile⟩, hnew⟩
        exact absurd hfile (hnew r)
      · intro hmem
        simp at hmem

theorem oneEach_transcoded {ret : Bool} (h : Transcoded engine item w ret w') : OneEach w w' := by
  cases h with
  | present hthere => exact .refl w
  | ran hfree hrun =>
      have hcall := oneEach_call (w := w) hwrites hspares hfree
      rwa [hrun] at hcall

/-- A turn makes its output if it can, or calls nothing. -/
theorem oneEach_turn {r : EStateM.Result Fault (World τ) Unit} (h : Turn engine item w r) :
    OneEach w (Each.left r) := by
  have hpreview : ∀ {v : World τ} {r : EStateM.Result Fault (World τ) Unit},
      Previewed engine item v r → OneEach v (Each.left r) := by
    intro v r h
    have hfs := fs_of_previewed hwrites h
    refine .of_noFile (by rw [hfs]; exact Tree.Keeps.refl _) ?_ (outputsIn_previewed h)
    intro loc r' hfile
    rwa [hfs] at hfile
  have hrecord : ∀ {v v' : World τ} {event : Event}, v'.fs = v.fs → v'.events = v.events ++ [event] →
      outputsIn [event] = [] → OneEach v v' := by
    intro v v' event hfs hevents hnil
    refine .of_noFile (by rw [hfs]; exact .refl _) ?_ ⟨_, hevents, hnil⟩
    intro loc r hfile
    rwa [hfs] at hfile
  cases h with
  | skipped hskip => exact hrecord rfl rfl rfl
  | @noDirectory e t hdue hdir => exact oneEach_setTree (Or.inr ⟨e, hdir⟩)
  | @raised t f s hdue hdir hfree hrun =>
      have hcall := oneEach_call (w := w.setTree t) hwrites hspares hfree
      have hrun' : engine.transcoder.transcode item.sourcePath item.targetPath
          ((w.setTree t).fs, (w.setTree t).transcoder) = .error f s := hrun
      rw [hrun'] at hcall
      exact (oneEach_setTree (Or.inl hdir)).trans hcall
  | @failed t v hdue hdir hrun =>
      have hcall := oneEach_transcoded (w := w.setTree t) hwrites hspares hrun
      exact ((oneEach_setTree (Or.inl hdir)).trans hcall).trans (hrecord rfl rfl rfl)
  | @notPreviewed t v v' f hdue hdir hrun hshot =>
      have hcall := oneEach_transcoded (w := w.setTree t) hwrites hspares hrun
      exact ((oneEach_setTree (Or.inl hdir)).trans hcall).trans (hpreview hshot)
  | @succeeded t v v' hdue hdir hrun hshot =>
      have hcall := oneEach_transcoded (w := w.setTree t) hwrites hspares hrun
      have hfirst := ((oneEach_setTree (Or.inl hdir)).trans hcall).trans (hpreview hshot)
      exact hfirst.trans (hrecord rfl rfl rfl)

end Turn

/-! ## Passes and runs -/

theorem oneEach_pass {engine : Engine τ} (hwrites : Writes engine.transcoder)
    (hspares : Spares engine.transcoder) {w : World τ}
    (hqueue : w.state.toEncodeQueue = []) (library target : Str) :
    OneEach w (Each.left (engine.doEncode library target w)) := by
  rw [doEncode_of_empty engine hqueue]
  refine Each.left_forM (P := fun v => OneEach w v) ?_ (.refl w)
  intro item _ v hv
  exact hv.trans (oneEach_turn hwrites hspares (turn_spec engine item v))

/-- The queue is empty again after a pass, however it ends. -/
theorem toEncodeQueue_of_pass {engine : Engine τ} {w : World τ}
    (hqueue : w.state.toEncodeQueue = []) (library target : Str) :
    (Each.left (engine.doEncode library target w)).state.toEncodeQueue = [] := by
  rw [doEncode_of_empty engine hqueue]
  refine Each.left_forM (P := fun v : World τ => v.state.toEncodeQueue = []) ?_ hqueue
  intro item _ v hv
  exact (toEncodeQueue_of_turn (turn_spec engine item v)).trans hv

theorem oneEach_history {w w' : World τ} (h : History w w') : OneEach w w' := by
  induction h with
  | refl => exact .refl w
  | @pass v v' _ engine hwrites hspares library target hfs hevents hqueue ih =>
      have hpass := oneEach_pass hwrites hspares hqueue library target
      refine ih.trans ⟨by rw [← hfs]; exact hpass.keeps, ?_⟩
      have hmade := hpass.made
      rwa [hfs, hevents] at hmade

end Engine

namespace EngineManager

open Engine

variable {κ τ : Type} {engineOf : κ → Engine τ}

/-- Engines with a transcoder that writes its output where it can, and nothing left in their queues. -/
def Fresh (engineOf : κ → Engine τ) (p : Polling κ τ) : Prop :=
  ∀ entry ∈ p.engines.entries,
    (Writes (engineOf entry.2.transcoder).transcoder ∧
      Spares (engineOf entry.2.transcoder).transcoder) ∧ entry.2.state.toEncodeQueue = []

/-- A round is a pass with the engine, unless `$do_quit` is set. -/
theorem left_round (entry : Key × Registered κ) (q : Polling κ τ) :
    (q.looks = 0 ∧ Each.left (round engineOf entry q) = q) ∨
      Each.left (round engineOf entry q) =
        ({ q with looks := q.looks - 1 } : Polling κ τ).leave entry.1
          (Each.left ((engineOf entry.2.transcoder).doEncode entry.1.1 entry.1.2
            (q.worldOf entry.2.state))) := by
  by_cases hlooks : q.looks = 0
  · left
    refine ⟨hlooks, ?_⟩
    rw [round_of_quit hlooks]
    rfl
  · right
    rw [round_of_not_quit hlooks, encode]
    have hworld : ({ q with looks := q.looks - 1 } : Polling κ τ).worldOf entry.2.state =
        q.worldOf entry.2.state := rfl
    rw [hworld]
    cases (engineOf entry.2.transcoder).doEncode entry.1.1 entry.1.2 (q.worldOf entry.2.state) <;>
      rfl

theorem history_of_round {p q : Polling κ τ} {entry : Key × Registered κ}
    (hentry : (Writes (engineOf entry.2.transcoder).transcoder ∧
      Spares (engineOf entry.2.transcoder).transcoder) ∧ entry.2.state.toEncodeQueue = [])
    (hhistory : History p.world q.world) (hfresh : Fresh engineOf q) :
    History p.world (Each.left (round engineOf entry q)).world ∧
      Fresh engineOf (Each.left (round engineOf entry q)) := by
  rcases @left_round κ τ engineOf entry q with ⟨-, hquit⟩ | hleft
  · rw [hquit]
    exact ⟨hhistory, hfresh⟩
  · have hqueue : (q.worldOf entry.2.state).state.toEncodeQueue = [] := hentry.2
    have hpass : History p.world (Each.left ((engineOf entry.2.transcoder).doEncode entry.1.1
        entry.1.2 (q.worldOf entry.2.state))) :=
      hhistory.pass _ hentry.1.1 hentry.1.2 _ _ rfl rfl hqueue
    have hempty := @toEncodeQueue_of_pass τ (engineOf entry.2.transcoder) _ hqueue entry.1.1 entry.1.2
    rw [hleft]
    generalize Each.left ((engineOf entry.2.transcoder).doEncode entry.1.1 entry.1.2
      (q.worldOf entry.2.state)) = w at hpass hempty ⊢
    refine ⟨hpass, ?_⟩
    intro new hnew
    rcases List.mem_map.1 hnew with ⟨old, hold, rfl⟩
    by_cases hkey : old.1 = entry.1
    · rw [if_pos hkey]
      exact ⟨(hfresh old hold).1, hempty⟩
    · rw [if_neg hkey]
      exact hfresh old hold

theorem history_of_sweep {p q : Polling κ τ} (hhistory : History p.world q.world)
    (hfresh : Fresh engineOf q) :
    History p.world (Each.left (sweep engineOf q)).world ∧
      Fresh engineOf (Each.left (sweep engineOf q)) := by
  rw [sweep_eq]
  refine Each.left_forM (P := fun r => History p.world r.world ∧ Fresh engineOf r) ?_
    ⟨hhistory, hfresh⟩
  rintro entry hentry r ⟨hr, hr'⟩
  exact history_of_round (hfresh entry hentry) hr hr'

/-- Any number of rounds of the polling loop, up to an exception. -/
theorem history_of_poll (n : Nat) :
    ∀ {p q : Polling κ τ}, History p.world q.world → Fresh engineOf q →
      History p.world (Each.left (pollDirectoryAndEncode engineOf n q)).world := by
  induction n with
  | zero =>
      intro p q hhistory _
      exact hhistory
  | succ n ih =>
      intro p q hhistory hfresh
      by_cases hlooks : q.looks = 0
      · rw [poll_of_quit hlooks]
        exact hhistory
      · rw [poll_succ hlooks]
        have hsweep := history_of_sweep (q := { q with looks := q.looks - 1 }) hhistory hfresh
        cases hrun : sweep engineOf { q with looks := q.looks - 1 } with
        | error e r =>
            rw [hrun] at hsweep
            exact hsweep.1
        | ok u r =>
            rw [hrun] at hsweep
            simp only
            split
            · exact ih (q := { r with looks := 0 }) hsweep.1 hsweep.2
            · exact ih hsweep.1 hsweep.2

end EngineManager

namespace Sample

theorem spares_transcoder (size : Nat) (ret : Bool) : Engine.Spares (transcoder size ret) := by
  intro input output fs s _ hcreates
  simp [transcoder, hcreates]

end Sample

end Yikes
