import Yikes.Lib.Engine

/-!
# Manager — the engines of a run (`EngineManager` in `lib/engine.rb`)

* `Registry` has one engine for every pair of a library and a target;
* `EngineManager.saveState` and `loadState` keep it in a file, as YAML;
* `EngineManager.pollDirectoryAndEncode` makes a pass with every engine in turn, until `$do_quit` is
  set.

`κ` is the type of the transcoder classes.
-/

namespace Yikes

open Ruby

/-- `[library, target]` -/
abbrev Key := Str × Str

/-- An `Engine` object. -/
structure Registered (κ : Type) where
  transcoder : κ
  state : State
  deriving DecidableEq, Repr

structure Registry (κ : Type) where
  entries : List (Key × Registered κ)
  nodup : (entries.map Prod.fst).Nodup

/-! ## Registering engines -/

namespace Registry

variable {κ : Type}

def empty : Registry κ where
  entries := []
  nodup := List.nodup_nil

def find? (registry : Registry κ) (key : Key) : Option (Registered κ) :=
  registry.entries.lookup key

theorem find?_eq_none {registry : Registry κ} {key : Key} (h : registry.find? key = none) :
    key ∉ registry.entries.map Prod.fst := by
  intro hmem
  rcases List.mem_map.1 hmem with ⟨entry, hentry, hkey⟩
  have hne := List.lookup_eq_none_iff.1 h entry hentry
  simp [hkey] at hne

def add (registry : Registry κ) (key : Key) (engine : Registered κ)
    (hnew : registry.find? key = none) : Registry κ where
  entries := registry.entries ++ [(key, engine)]
  nodup := by
    have hkey := find?_eq_none hnew
    have hnodup : (registry.entries.map Prod.fst ++ [key]).Nodup :=
      registry.nodup.append (List.nodup_singleton key) (by simpa using hkey)
    simpa using hnodup

def remove (registry : Registry κ) (key : Key) : Registry κ where
  entries := registry.entries.filter fun entry => entry.1 ≠ key
  nodup := registry.nodup.sublist (List.filter_sublist.map _)

/-- The registry once the engine under `key` is in the given state. -/
def setState (registry : Registry κ) (key : Key) (state : State) : Registry κ where
  entries := registry.entries.map fun entry =>
    if entry.1 = key then (entry.1, { entry.2 with state := state }) else entry
  nodup := by
    have hkeys : (registry.entries.map fun entry =>
        if entry.1 = key then (entry.1, { entry.2 with state := state }) else entry).map Prod.fst =
          registry.entries.map Prod.fst := by
      rw [List.map_map]
      refine List.map_congr_left ?_
      intro entry _
      by_cases hkey : entry.1 = key <;> simp [hkey]
    rw [hkeys]
    exact registry.nodup

end Registry

/-! ## The registry as YAML -/

/-- The values of YAML documents, as far as the program has to do with them.  `other` is anything else:
numbers, times, objects of other classes, an `Engine` that lacks a part. -/
inductive Value (κ : Type)
  | nil
  | bool (b : Bool)
  | text (s : Str)
  | engine (engine : Registered κ)
  | seq (items : List (Value κ))
  | map (entries : List (Value κ × Value κ))
  | other (description : Str)

/-- `YAML::dump` and `YAML::load`. -/
structure Yaml (κ : Type) where
  dump : Value κ → Except Fault (List UInt8)
  load : List UInt8 → Except Fault (Value κ)

def Registry.toValue {κ : Type} (registry : Registry κ) : Value κ :=
  .map (registry.entries.map fun entry =>
    (.seq [.text entry.1.1, .text entry.1.2], .engine entry.2))

theorem Registry.toValue_inj {κ : Type} {r r' : Registry κ} (h : r.toValue = r'.toValue) :
    r = r' := by
  have hentries : r.entries = r'.entries := by
    have hmap := Value.map.inj h
    refine List.map_injective_iff.2 ?_ hmap
    rintro ⟨⟨library, target⟩, engine⟩ ⟨⟨library', target'⟩, engine'⟩ hsame
    simpa using hsame
  rcases r with ⟨entries, nodup⟩
  rcases r' with ⟨entries', nodup'⟩
  simp only at hentries
  subst hentries
  rfl

namespace EngineManager

variable {κ τ : Type}

/-! ## `add_engine`, `active_engines`, `remove_engine` -/

def engineKey (library target : Str) : Key :=
  (library, target)

def addEngine (engines : Registry κ) (library target : Str) (transcoder : κ) :
    Registered κ × Registry κ :=
  match h : engines.find? (engineKey library target) with
  | some engine => (engine, engines)
  | none =>
      let engine : Registered κ := { transcoder := transcoder, state := State.new library }
      (engine, engines.add (engineKey library target) engine h)

def activeEngines (engines : Registry κ) : List (Registered κ) :=
  engines.entries.map Prod.snd

def removeEngine (engines : Registry κ) (library target : Str) : Registry κ :=
  engines.remove (engineKey library target)

/-! ## `load_state`, `save_state` -/

/-- `@engines ||= {}` -/
def initializeIfNeeded : Value κ → Value κ
  | .nil => .map []
  | .bool false => .map []
  | engines => engines

/-- The value of `@engines` after `load_state`. -/
def loadState (yaml : Yaml κ) (fs : FileSystem) (path : Str) : Value κ :=
  match fs.read path with
  | .error _ => .map []
  | .ok text =>
      -- the value is taken as it is, whatever its shape
      match yaml.load text with
      | .error _ => .map []
      | .ok engines => engines

/-- The files when `save_state` has come to an end: before the file was opened, or after it was and
(at most) `count` bytes were written. -/
def saveState (yaml : Yaml κ) (fs : FileSystem) (path : Str) (engines : Value κ) :
    Option Nat → FileSystem
  | none => fs
  | some count =>
      -- the text is made in the block, when the file is open and empty already
      match fs.openWrite path with
      | .error _ => fs
      | .ok (loc, opened) =>
          match yaml.dump (initializeIfNeeded engines) with
          | .error _ => opened
          | .ok text => opened.fill loc (text.take count)

/-! ## `poll_directory_and_encode` -/

/-- What the polling loop acts on; the state in `world` is that of the engine at work. -/
structure Polling (κ τ : Type) where
  engines : Registry κ
  world : World τ
  /-- how many more looks at `$do_quit` find it unset -/
  looks : Nat

abbrev PollM (κ τ : Type) := EStateM Fault (Polling κ τ)

/-- A look at `$do_quit`, which stays set once it is. -/
def doQuit : PollM κ τ Bool :=
  modifyGet fun p => if p.looks = 0 then (true, p) else (false, { p with looks := p.looks - 1 })

def Polling.worldOf (p : Polling κ τ) (state : State) : World τ :=
  { p.world with state := state }

def Polling.leave (p : Polling κ τ) (key : Key) (w : World τ) : Polling κ τ :=
  { p with engines := p.engines.setState key w.state, world := w }

variable (engineOf : κ → Engine τ)

/-- `engine.do_encode(library, target)` -/
def encode (entry : Key × Registered κ) : PollM κ τ Unit := fun p =>
  match (engineOf entry.2.transcoder).doEncode entry.1.1 entry.1.2 (p.worldOf entry.2.state) with
  | .ok _ w => .ok () (p.leave entry.1 w)
  | .error e w => .error e (p.leave entry.1 w)

/-- One round of `each_pair`; after `break` there is nothing more to do for any engine. -/
def round (entry : Key × Registered κ) : PollM κ τ Unit := do
  unless ← doQuit do
    encode engineOf entry

def sweep : PollM κ τ Unit := do
  let p ← get
  p.engines.entries.forM (round engineOf)

/-- Without an engine there is nothing to do until `$do_quit` is set. -/
def nap : PollM κ τ Unit :=
  modify fun p => if p.engines.entries.length = 0 then { p with looks := 0 } else p

/-- The first `rounds` rounds of the outer loop. -/
def pollDirectoryAndEncode : Nat → PollM κ τ Unit
  | 0 => pure ()
  | rounds + 1 => do
      unless ← doQuit do
        sweep engineOf
        nap
        pollDirectoryAndEncode rounds

end EngineManager

end Yikes
