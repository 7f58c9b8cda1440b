import Yikes.Lib.Loaded
import Yikes.Properties.Raise
import Yikes.Properties.Save

/-!
# Load — which state files leave a manager that works

On a hash that is a registry the methods do what they do on the registry (`call_toValue`).  On any
other value some call raises or returns engines that were never registered, so a state file leaves a
working manager exactly if it cannot be read, does not decode, or decodes to a registry
(`survives_iff`).
-/

namespace Yikes

open Ruby

variable {κ τ : Type}

/-! ## Hashes that are registries -/

namespace Registry

/-- An entry of the hash that a registry is. -/
def toEntry (entry : Key × Registered κ) : Value κ × Value κ :=
  (Value.ofKey entry.1, .engine entry.2)

theorem toValue_eq (r : Registry κ) : r.toValue = .map (r.entries.map toEntry) := rfl

@[simp] theorem ofEntry_toEntry (entry : Key × Registered κ) : ofEntry (toEntry entry) = some entry :=
  rfl

theorem toEntry_of_ofEntry {entry : Value κ × Value κ} {x : Key × Registered κ}
    (h : ofEntry entry = some x) : entry = toEntry x := by
  unfold ofEntry at h
  split at h
  · cases h
    rfl
  · cases h

theorem ofEntries_map (entries : List (Key × Registered κ)) :
    ofEntries (entries.map toEntry) = some entries := by
  induction entries with
  | nil => rfl
  | cons entry entries ih => simp [ofEntries, ih]

theorem map_of_ofEntries {entries : List (Value κ × Value κ)} :
    ∀ {xs : List (Key × Registered κ)}, ofEntries entries = some xs → entries = xs.map toEntry := by
  induction entries with
  | nil =>
      intro xs h
      cases h
      rfl
  | cons entry entries ih =>
      intro xs h
      unfold ofEntries at h
      split at h
      · next x xs' hx hxs =>
          cases h
          rw [toEntry_of_ofEntry hx, ih hxs]
          rfl
      · cases h

theorem ofValue?_toValue (r : Registry κ) : ofValue? r.toValue = some r := by
  simp only [ofValue?, toValue_eq, ofEntries_map, r.nodup, dite_true]

theorem toValue_of_ofValue? {v : Value κ} {r : Registry κ} (h : ofValue? v = some r) :
    v = r.toValue := by
  cases v with
  | map entries =>
      simp only [ofValue?] at h
      cases hxs : ofEntries entries with
      | none => simp [hxs] at h
      | some xs =>
          by_cases hnodup : (xs.map Prod.fst).Nodup
          · have hr : { entries := xs, nodup := hnodup } = r := by simpa [hxs, hnodup] using h
            rw [← hr, toValue_eq, map_of_ofEntries hxs]
          · simp [hxs, hnodup] at h
  | _ => simp [ofValue?] at h

end Registry

namespace EngineManager

open Registry

/-! ## The methods on a registry -/

@[simp] theorem isKey_ofKey (key key' : Key) :
    (Value.ofKey key' : Value κ).isKey key = decide (key' = key) := rfl

theorem fetch_map (entries : List (Key × Registered κ)) (key : Key) :
    Value.fetch (entries.map toEntry) key = ((entries.lookup key).map Value.engine).getD .nil := by
  induction entries with
  | nil => rfl
  | cons entry entries ih =>
      by_cases hkey : entry.1 = key
      · have hbeq : (key == entry.1) = true := by simp [hkey]
        rw [List.lookup_cons, hbeq]
        simp [Value.fetch, toEntry, hkey]
      · have hne : ¬ key = entry.1 := fun h => hkey h.symm
        have hbeq : (key == entry.1) = false := by simpa using hne
        rw [List.lookup_cons, hbeq]
        simpa [Value.fetch, toEntry, hkey] using ih

theorem store_map {entries : List (Key × Registered κ)} {key : Key}
    (h : key ∉ entries.map Prod.fst) (engine : Registered κ) :
    Value.store (entries.map toEntry) key (.engine engine) =
      (entries ++ [(key, engine)]).map toEntry := by
  have hnone : ((entries.map toEntry).any fun entry => entry.1.isKey key) = false := by
    rw [List.any_eq_false]
    intro entry hentry
    rcases List.mem_map.1 hentry with ⟨x, hx, rfl⟩
    have hne : x.1 ≠ key := fun heq => h (heq ▸ List.mem_map_of_mem hx)
    simp [toEntry, hne]
  simp [Value.store, hnone, toEntry]

theorem addEngineTo_toValue (r : Registry κ) (library target : Str) (transcoder : κ) :
    addEngineTo r.toValue library target transcoder =
      .ok (.engine (addEngine r library target transcoder).1,
        (addEngine r library target transcoder).2.toValue) := by
  have hfetch := fetch_map r.entries (engineKey library target)
  unfold addEngine
  split
  · next engine hfind =>
      have hlookup : r.entries.lookup (engineKey library target) = some engine := hfind
      rw [hlookup] at hfetch
      simp [addEngineTo, initializeIfNeeded, toValue_eq, hfetch, Value.truthy]
  · next hfind =>
      -- there is nothing under the key, so the new engine goes to the end of the hash
      have hlookup : r.entries.lookup (engineKey library target) = none := hfind
      have hstore := store_map (Registry.find?_eq_none hfind)
        { transcoder := transcoder, state := State.new library }
      rw [hlookup] at hfetch
      simp [addEngineTo, initializeIfNeeded, toValue_eq, hfetch, Value.truthy, hstore, Registry.add]

theorem removeEngineFrom_toValue (r : Registry κ) (library target : Str) :
    removeEngineFrom r.toValue library target =
      .ok (((r.find? (engineKey library target)).map Value.engine).getD .nil,
        (removeEngine r library target).toValue) := by
  have hfetch := fetch_map r.entries (engineKey library target)
  have hfilter : (r.entries.map toEntry).filter
        (fun entry => !entry.1.isKey (engineKey library target)) =
      (r.entries.filter fun entry => entry.1 ≠ engineKey library target).map toEntry := by
    rw [List.filter_map]
    congr 1
    apply List.filter_congr
    intro entry _
    simp [toEntry]
  simp only [removeEngineFrom, initializeIfNeeded, toValue_eq, hfetch, hfilter]
  rfl

/-- A call on the hash of a registry is the call on the registry. -/
theorem call_toValue (op : Op κ) (r : Registry κ) :
    op.call r.toValue = .ok ((op.serve r).1, (op.serve r).2.toValue) := by
  cases op with
  | addEngine library target transcoder => exact addEngineTo_toValue r library target transcoder
  | removeEngine library target => exact removeEngineFrom_toValue r library target
  | activeEngines =>
      simp [Op.call, Op.serve, activeEnginesOf, activeEngines, initializeIfNeeded, toValue_eq,
        toEntry]
  | saveState => rfl

theorem callAll_toValue (ops : List (Op κ)) (r : Registry κ) :
    callAll ops r.toValue = .ok ((serveAll ops r).1, (serveAll ops r).2.toValue) := by
  induction ops generalizing r with
  | nil => rfl
  | cons op ops ih => simp [callAll, call_toValue, ih, serveAll, Except.map]

/-! ## Which values work -/

/-- The registry that a value is taken for: itself, or the empty one. -/
def decoded (engines : Value κ) : Registry κ :=
  (ofValue? engines).getD .empty

/-- `@engines` behaves as the registry `r`: whatever is called, nothing raises, the calls return what
they return on `r`, and the polling loop that follows is that of `r`. -/
def Behaves (τ : Type) (engines : Value κ) (r : Registry κ) : Prop :=
  ∀ ops : List (Op κ), ∃ left, callAll ops engines = .ok ((serveAll ops r).1, left) ∧
    ∀ (engineOf : κ → Engine τ)
      (odd : List (Value κ × Value κ) → EStateM.Result Fault (Polling κ τ) Unit)
      (rounds looks : Nat) (world : World τ),
      pollEngines engineOf odd rounds looks world left =
        pollDirectoryAndEncode engineOf rounds
          { engines := (serveAll ops r).2, world := world, looks := looks }

theorem behaves_toValue (τ : Type) (r : Registry κ) : Behaves τ r.toValue r := by
  intro ops
  refine ⟨_, callAll_toValue ops r, ?_⟩
  intro engineOf odd rounds looks world
  simp [pollEngines, ofValue?_toValue]

/-- The empty registry lists no engine. -/
theorem activeEngines_of_behaves {engines : Value κ} (h : Behaves τ engines .empty) :
    ∃ left, activeEnginesOf engines = .ok (.seq [], left) := by
  rcases h [.activeEngines] with ⟨left, hcall, -⟩
  cases hactive : activeEnginesOf engines with
  | error e => simp [callAll, Op.call, hactive] at hcall
  | ok r =>
      refine ⟨r.2, ?_⟩
      have hret : r.1 = .seq [] := by
        simpa [callAll, Op.call, hactive, Except.map, serveAll, Op.serve, activeEngines,
          Registry.empty] using congrArg (Except.map fun x => x.1) hcall
      rw [← hret]

/-- On the empty registry the polling loop has nothing to do. -/
theorem poll_empty (engineOf : κ → Engine τ) (world : World τ) :
    ∃ p, pollDirectoryAndEncode engineOf 1
      { engines := (Registry.empty : Registry κ), world := world, looks := 1 } = .ok () p := by
  rw [poll_succ (by simp)]
  exact ⟨_, rfl⟩

/-- What the polling loop finds in `@engines` must be a hash, also before `initialize_if_needed` has
repaired it. -/
theorem hash_of_behaves [Inhabited τ] {engines : Value κ} (h : Behaves τ engines .empty) :
    ∃ entries, engines = .map entries := by
  let world : World τ :=
    { fs := { tree := Tree.empty 0, data := fun _ => [] }
      settings := Tree.empty 0
      transcoder := default
      state := State.new []
      clock := 0
      events := [] }
  let engineOf : κ → Engine τ := fun _ =>
    { transcoder :=
        { beforeTranscode := pure ()
          transcode := fun _ _ => pure false
          getScreenshot := fun _ _ => pure () }
      platform := { os := none, runtime := .mri, home := none }
      md5 := id }
  let odd : List (Value κ × Value κ) → EStateM.Result Fault (Polling κ τ) Unit := fun _ =>
    .error typeError { engines := .empty, world := world, looks := 1 }
  rcases h [] with ⟨left, hcall, hpoll⟩
  have hleft : engines = left := by
    cases hcall
    rfl
  subst hleft
  have hrun := hpoll engineOf odd 1 1 world
  rcases poll_empty engineOf world with ⟨p, hok⟩
  rw [show (serveAll [] (Registry.empty : Registry κ)).2 = Registry.empty from rfl, hok] at hrun
  cases engines with
  | map entries => exact ⟨entries, rfl⟩
  | _ => simp [pollEngines, ofValue?] at hrun

/-- A value behaves as what it is taken for only if it is a registry. -/
theorem behaves_iff [Inhabited τ] (engines : Value κ) :
    Behaves τ engines (decoded engines) ↔ ∃ r : Registry κ, engines = r.toValue := by
  constructor
  · intro h
    cases hvalue : ofValue? engines with
    | some r => exact ⟨r, toValue_of_ofValue? hvalue⟩
    | none =>
        have hdecoded : decoded engines = .empty := by simp [decoded, hvalue]
        rw [hdecoded] at h
        rcases hash_of_behaves h with ⟨entries, rfl⟩
        rcases activeEngines_of_behaves h with ⟨left, hactive⟩
        -- a hash without values is the empty registry
        have hvalues : entries.map Prod.snd = [] := by
          simp only [activeEnginesOf, initializeIfNeeded, Except.ok.injEq, Prod.mk.injEq,
            Value.seq.injEq] at hactive
          exact hactive.1
        refine ⟨.empty, ?_⟩
        rw [List.map_eq_nil_iff.1 hvalues]
        rfl
  · rintro ⟨r, rfl⟩
    have hdecoded : decoded r.toValue = r := by simp [decoded, ofValue?_toValue]
    rw [hdecoded]
    exact behaves_toValue τ r

/-- A state file that leaves a registry: it cannot be read, or YAML raises, or it decodes to one. -/
def LeavesRegistry (yaml : Yaml κ) (fs : FileSystem) (path : Str) : Prop :=
  match fs.read path with
  | .error _ => True
  | .ok text =>
      match yaml.load text with
      | .error _ => True
      | .ok engines => ∃ r : Registry κ, engines = r.toValue

/-- After `load_state` on a fresh manager, `@engines` behaves as the decoded registry, or the empty
one, if and only if the file leaves a registry. -/
theorem survives_iff [Inhabited τ] (yaml : Yaml κ) (fs : FileSystem) (path : Str) :
    Behaves τ (loadState yaml fs path) (decoded (loadState yaml fs path)) ↔
      LeavesRegistry yaml fs path := by
  rw [behaves_iff]
  unfold loadState LeavesRegistry
  cases fs.read path with
  | error e => exact ⟨fun _ => trivial, fun _ => ⟨.empty, rfl⟩⟩
  | ok text =>
      cases hload : yaml.load text with
      | error e => simpa [hload] using (⟨.empty, rfl⟩ : ∃ r : Registry κ, Value.map [] = r.toValue)
      | ok engines => simp [hload]

end EngineManager

namespace Sample

open EngineManager

/-- A state file with the given text. -/
def stateFile (text : List UInt8) : FileSystem :=
  FileSystem.write { tree := Tree.empty 8, data := fun _ => [] } path text

/-- YAML on a scalar and on the empty text. -/
def scalarYaml : Yaml Str where
  dump := fun _ => .error (.raised [])
  load text :=
    if text = [] then .ok (.bool false)
    else if text = bytes "--- hello\n" then .ok (.text "hello".toList)
    else .error (.raised [])

theorem load_scalar :
    loadState scalarYaml (stateFile (bytes "--- hello\n")) path = .text "hello".toList := by
  have hread : (stateFile (bytes "--- hello\n")).read path = .ok (bytes "--- hello\n") :=
    read_write _
  have hload : scalarYaml.load (bytes "--- hello\n") = .ok (.text "hello".toList) := rfl
  rw [loadState, hread]
  simp only [hload]

theorem load_empty : loadState scalarYaml (stateFile []) path = .bool false := by
  have hread : (stateFile []).read path = .ok [] := read_write []
  have hload : scalarYaml.load [] = .ok (.bool false) := rfl
  rw [loadState, hread]
  simp only [hload]

end Sample

/-- A state file that holds a scalar makes `add_engine` raise, and an empty one the polling loop. -/
theorem scalar_state_raises :
    EngineManager.addEngineTo (EngineManager.loadState Sample.scalarYaml
        (Sample.stateFile (Sample.bytes "--- hello\n")) Sample.path) "v".toList "t".toList [] =
      .error typeError ∧
    (¬ EngineManager.Behaves Unit
      (EngineManager.loadState Sample.scalarYaml
        (Sample.stateFile (Sample.bytes "--- hello\n")) Sample.path)
      (EngineManager.decoded (EngineManager.loadState Sample.scalarYaml
        (Sample.stateFile (Sample.bytes "--- hello\n")) Sample.path))) ∧
    ¬ EngineManager.Behaves Unit
      (EngineManager.loadState Sample.scalarYaml (Sample.stateFile []) Sample.path)
      (EngineManager.decoded
        (EngineManager.loadState Sample.scalarYaml (Sample.stateFile []) Sample.path)) := by
  rw [Sample.load_scalar, Sample.load_empty, EngineManager.behaves_iff, EngineManager.behaves_iff]
  refine ⟨rfl, ?_, ?_⟩
  · rintro ⟨r, hr⟩
    cases hr
  · rintro ⟨r, hr⟩
    cases hr

end Yikes
