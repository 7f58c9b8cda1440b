import Yikes.Lib.Manager

/-!
# Save — where `save_state` can stop

`save_state` opens the file for writing, which empties it, before it makes the text.  `atomic_iff`
says at which points of that a stop leaves a registry that `load_state` reads back: the one that was
saved before, or the new one.
-/

namespace Yikes

open Ruby

namespace EngineManager

variable {κ : Type}

/-- A fresh manager that loads the file has the registry `r`. -/
def Loads (yaml : Yaml κ) (fs : FileSystem) (path : Str) (r : Registry κ) : Prop :=
  initializeIfNeeded (loadState yaml fs path) = r.toValue

/-- A text is taken for the registry `r`; one that YAML does not understand is taken for the empty
one. -/
def TakenFor (yaml : Yaml κ) (text : List UInt8) (r : Registry κ) : Prop :=
  match yaml.load text with
  | .error _ => r = .empty
  | .ok engines => initializeIfNeeded engines = r.toValue

/-- The points at which a stop does no harm: before the file is open; once the text is complete; with
nothing in the file, if one of the two registries is empty; and with a proper part of the text in
it, if that happens to be taken for one of the two. -/
def Harmless (yaml : Yaml κ) (old new : Registry κ) : Option Nat → Prop
  | none => True
  | some count =>
      match yaml.dump new.toValue with
      | .error _ => old = .empty ∨ new = .empty
      | .ok text =>
          text.length ≤ count ∨
            (count = 0 ∧ (old = .empty ∨ new = .empty)) ∨
            (0 < count ∧ count < text.length ∧
              (TakenFor yaml (text.take count) old ∨ TakenFor yaml (text.take count) new))

/-! ## Reading back what was written -/

theorem initializeIfNeeded_toValue (r : Registry κ) :
    initializeIfNeeded r.toValue = r.toValue := rfl

theorem map_nil_eq_toValue {r : Registry κ} : Value.map [] = r.toValue ↔ r = .empty := by
  constructor
  · intro h
    exact Registry.toValue_inj h.symm
  · rintro rfl
    rfl

theorem loads_iff {yaml : Yaml κ} {fs : FileSystem} {path : Str} {text : List UInt8}
    (htext : fs.read path = .ok text) (r : Registry κ) :
    Loads yaml fs path r ↔ TakenFor yaml text r := by
  unfold Loads TakenFor
  cases hload : yaml.load text with
  | error e =>
      have hstate : loadState yaml fs path = .map [] := by simp [loadState, htext, hload]
      rw [hstate]
      exact map_nil_eq_toValue
  | ok engines =>
      have hstate : loadState yaml fs path = engines := by simp [loadState, htext, hload]
      rw [hstate]

theorem takenFor_nil {yaml : Yaml κ} (hempty : yaml.load [] = .ok (.bool false))
    (r : Registry κ) : TakenFor yaml [] r ↔ r = .empty := by
  unfold TakenFor
  rw [hempty]
  exact map_nil_eq_toValue

/-- The file that was saved can be opened for writing, and what it is filled with is read back. -/
theorem openWrite_of_read {fs : FileSystem} {path : Str} {text : List UInt8}
    (hread : fs.read path = .ok text) :
    ∃ loc, fs.openWrite path = .ok (loc, fs.fill loc []) ∧
      ∀ bytes, (fs.fill loc bytes).read path = .ok bytes := by
  cases hstat : fs.tree.stat path with
  | none => simp [FileSystem.read_of_none hstat] at hread
  | some loc =>
      have hnode : fs.tree.node? loc = some (.file true) := by
        unfold FileSystem.read at hread
        simp only [hstat] at hread
        split at hread
        · assumption
        · cases hread
        · cases hread
      refine ⟨loc, ?_, ?_⟩
      · simp [FileSystem.openWrite, hstat, Tree.isDir, hnode, Node.isDir]
      · intro bytes
        have hread : (fs.fill loc bytes).read path = .ok ((fs.fill loc bytes).data loc) :=
          FileSystem.read_of_file hstat hnode
        simpa [FileSystem.fill] using hread

/-- What is in the file after a stop behind the opening. -/
theorem read_saveState {yaml : Yaml κ} {fs : FileSystem} {path : Str} {text : List UInt8}
    (hread : fs.read path = .ok text) (r : Registry κ) (count : Nat) :
    (saveState yaml fs path r.toValue (some count)).read path =
      match yaml.dump r.toValue with
      | .error _ => .ok []
      | .ok text => .ok (text.take count) := by
  rcases openWrite_of_read hread with ⟨loc, hopen, hfill⟩
  cases hdump : yaml.dump r.toValue with
  | error e => simp [saveState, hopen, initializeIfNeeded_toValue, hdump, hfill]
  | ok new =>
      have hrefill : (fs.fill loc []).fill loc (new.take count) = fs.fill loc (new.take count) := by
        simp [FileSystem.fill]
      simp [saveState, hopen, initializeIfNeeded_toValue, hdump, hrefill, hfill]

/-! ## Every stop -/

section Stop

variable {yaml : Yaml κ} {fs : FileSystem} {path : Str} {old new : Registry κ} {text : List UInt8}
  (hempty : yaml.load [] = .ok (.bool false))
  (hload : ∀ (r : Registry κ) (text : List UInt8), yaml.dump r.toValue = .ok text →
    yaml.load text = .ok r.toValue)
  (hdump : yaml.dump old.toValue = .ok text) (hsaved : fs.read path = .ok text)

include hempty hload hdump hsaved

theorem harmless_iff (reached : Option Nat) :
    (Loads yaml (saveState yaml fs path new.toValue reached) path old ∨
        Loads yaml (saveState yaml fs path new.toValue reached) path new) ↔
      Harmless yaml old new reached := by
  have htaken : ∀ (r : Registry κ) {text : List UInt8}, yaml.dump r.toValue = .ok text →
      TakenFor yaml text r := by
    intro r text hr
    simp [TakenFor, hload r text hr, initializeIfNeeded_toValue]
  cases reached with
  | none =>
      -- the file was not touched
      have hold : Loads yaml fs path old := (loads_iff hsaved old).2 (htaken old hdump)
      simpa [saveState, Harmless] using Or.inl hold
  | some count =>
      have hread := @read_saveState _ yaml _ _ _ hsaved new count
      unfold Harmless
      cases hnew : yaml.dump new.toValue with
      | error e =>
          rw [hnew] at hread
          -- the file was emptied for nothing
          rw [loads_iff hread, loads_iff hread, takenFor_nil hempty, takenFor_nil hempty]
      | ok written =>
          rw [hnew] at hread
          rw [loads_iff hread, loads_iff hread]
          -- all of the text, none of it, or a proper part
          by_cases hall : written.length ≤ count
          · have hdone : TakenFor yaml (written.take count) new := by
              rw [List.take_of_length_le hall]
              exact htaken new hnew
            simp [hall, hdone]
          · by_cases hzero : count = 0
            · subst hzero
              rw [List.take_zero, takenFor_nil hempty, takenFor_nil hempty]
              have hne : written ≠ [] := by simpa using hall
              simp [hne]
            · have hpart : 0 < count ∧ count < written.length := by omega
              simp [hall, hzero, hpart]

/-- After a stop one of the two registries is read back if and only if the stop is harmless; not every
stop is, unless one of the two is empty. -/
theorem atomic_iff :
    (∀ reached,
      (Loads yaml (saveState yaml fs path new.toValue reached) path old ∨
          Loads yaml (saveState yaml fs path new.toValue reached) path new) ↔
        Harmless yaml old new reached) ∧
      ((∀ reached, Harmless yaml old new reached) → old = .empty ∨ new = .empty) := by
  refine ⟨harmless_iff hempty hload hdump hsaved, ?_⟩
  intro hall
  have hopened := (harmless_iff hempty hload hdump hsaved (some 0)).2 (hall (some 0))
  have hread := @read_saveState _ yaml _ _ _ hsaved new 0
  have hnothing : (saveState yaml fs path new.toValue (some 0)).read path = .ok [] := by
    rw [hread]
    cases yaml.dump new.toValue <;> rfl
  rwa [loads_iff hnothing, loads_iff hnothing, takenFor_nil hempty, takenFor_nil hempty] at hopened

end Stop

end EngineManager

/-! ## A saved registry -/

namespace Sample

open EngineManager

def bytes (s : String) : List UInt8 :=
  s.toList.map fun c => c.toNat.toUInt8

def path : Str := "state.yaml".toList

/-- The engine of `v` and `t`, before its first pass. -/
def registered : Registered Str where
  transcoder := "FFMpegTranscoder".toList
  state := State.new "v".toList

def registry : Registry Str :=
  (addEngine .empty "v".toList "t".toList registered.transcoder).2

def document : List UInt8 :=
  bytes "--- \n? - v\n  - t\n: !ruby/object:Engine \n" ++
    bytes "  state: !ruby/object:ApplicationState::State \n    encoded_queue: []\n\n" ++
    bytes "    library: v\n    target: \n    to_encode_queue: []\n\n" ++
    bytes "  transcoder: !ruby/object:FFMpegTranscoder \x7b\x7d\n\n"

/-- YAML, as far as the registry and the empty text need it. -/
def yaml : Yaml Str where
  dump
    | .map [(.seq [.text library, .text target], .engine engine)] =>
        if library = "v".toList ∧ target = "t".toList ∧ engine = registered then .ok document
        else .error (.raised [])
    | _ => .error (.raised [])
  load text :=
    if text = [] then .ok (.bool false)
    else if text = document then .ok registry.toValue
    else .error (.raised [])

/-- The registry was saved in the working directory. -/
def saved : FileSystem :=
  FileSystem.write { tree := Tree.empty 8, data := fun _ => [] } path document

/-- A text that is written in the working directory is read back. -/
theorem read_write (text : List UInt8) :
    (FileSystem.write { tree := Tree.empty 8, data := fun _ => [] } path text).read path =
      .ok text := by
  have hcreates : (Tree.empty 8).creates path = some [File.basename path] := by decide
  exact FileSystem.read_write text hcreates

theorem registry_toValue :
    registry.toValue =
      .map [(.seq [.text "v".toList, .text "t".toList], .engine registered)] := rfl

theorem dump_registry : yaml.dump registry.toValue = .ok document := by
  rw [registry_toValue]
  simp [yaml]

theorem load_nil : yaml.load [] = .ok (.bool false) := rfl

theorem load_document : yaml.load document = .ok registry.toValue := by
  have hne : document ≠ [] := by decide +kernel
  simp [yaml, hne]

theorem load_dump (r : Registry Str) (text : List UInt8) (h : yaml.dump r.toValue = .ok text) :
    yaml.load text = .ok r.toValue := by
  rcases r with ⟨entries, nodup⟩
  rcases entries with _ | ⟨⟨⟨library, target⟩, engine⟩, _ | ⟨entry, rest⟩⟩
  · cases h
  · simp only [Registry.toValue, List.map_cons, List.map_nil, yaml] at h
    split at h
    · next hsame =>
        rcases hsame with ⟨rfl, rfl, rfl⟩
        cases h
        exact load_document
    · cases h
  · cases h

theorem read_saved : saved.read path = .ok document :=
  read_write document

end Sample

theorem atomic_iff_sample :
    ¬ ∀ reached, EngineManager.Harmless Sample.yaml Sample.registry Sample.registry reached := by
  intro hall
  have hempty : Sample.registry = .empty ∨ Sample.registry = .empty :=
    (EngineManager.atomic_iff Sample.load_nil Sample.load_dump Sample.dump_registry
      Sample.read_saved).2 hall
  have hne : Sample.registry ≠ .empty := by
    intro h
    have hentries := congrArg Registry.entries h
    cases hentries
  rcases hempty with h | h <;> exact hne h

/-- When the process ends right after the file was opened, the registry that was saved is gone, though
it is also the one to be saved. -/
theorem opened_file_loses_registry :
    Sample.saved.read Sample.path = .ok Sample.document ∧
      Sample.yaml.dump Sample.registry.toValue = .ok Sample.document ∧
      Sample.yaml.load Sample.document = .ok Sample.registry.toValue ∧
      ¬ EngineManager.Loads Sample.yaml (EngineManager.saveState Sample.yaml Sample.saved Sample.path
        Sample.registry.toValue (some 0)) Sample.path Sample.registry := by
  refine ⟨Sample.read_saved, Sample.dump_registry, Sample.load_document, ?_⟩
  have hread := @EngineManager.read_saveState _ Sample.yaml _ _ _ Sample.read_saved Sample.registry 0
  rw [Sample.dump_registry] at hread
  rw [EngineManager.loads_iff hread, List.take_zero, EngineManager.takenFor_nil Sample.load_nil]
  intro h
  have hentries := congrArg Registry.entries h
  cases hentries

end Yikes
