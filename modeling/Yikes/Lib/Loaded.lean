import Yikes.Lib.Manager

/-!
# Loaded — the manager on whatever was loaded

`load_state` takes what `YAML::load` gives as it is, so `@engines` can be any value.  Here the methods
of the manager are what they do on every value: a `Hash` answers to all of them, an `Array` to
`delete` only, and anything else raises a `TypeError` or a `NoMethodError`.

`Op` are the calls that can follow `load_state`; `serve` is what they do to a registry, as in
`Lib/Manager.lean`.
-/

namespace Yikes

open Ruby

/-- A `TypeError` or a `NoMethodError`. -/
def typeError : Fault :=
  .raised "type error".toList

variable {κ τ : Type}

namespace Value

/-- Everything but `nil` and `false` is true. -/
def truthy : Value κ → Bool
  | .nil => false
  | .bool b => b
  | _ => true

/-- `[library, target]` -/
def ofKey (key : Key) : Value κ :=
  .seq [.text key.1, .text key.2]

/-- `eql?` with a key -/
def isKey (key : Key) : Value κ → Bool
  | .seq [.text library, .text target] => decide ((library, target) = key)
  | _ => false

/-- `hash[key]` -/
def fetch (entries : List (Value κ × Value κ)) (key : Key) : Value κ :=
  match entries.find? fun entry => entry.1.isKey key with
  | some entry => entry.2
  | none => .nil

/-- `hash[key] = value` -/
def store (entries : List (Value κ × Value κ)) (key : Key) (value : Value κ) :
    List (Value κ × Value κ) :=
  if entries.any fun entry => entry.1.isKey key then
    entries.map fun entry => if entry.1.isKey key then (entry.1, value) else entry
  else entries ++ [(ofKey key, value)]

end Value

/-! ## A hash that is a registry -/

namespace Registry

/-- An entry of a hash that has a pair of paths as its key and an engine as its value. -/
def ofEntry : Value κ × Value κ → Option (Key × Registered κ)
  | (.seq [.text library, .text target], .engine engine) => some ((library, target), engine)
  | _ => none

def ofEntries : List (Value κ × Value κ) → Option (List (Key × Registered κ))
  | [] => some []
  | entry :: entries =>
      match ofEntry entry, ofEntries entries with
      | some x, some xs => some (x :: xs)
      | _, _ => none

/-- The registry that a value is, if it is one. -/
def ofValue? : Value κ → Option (Registry κ)
  | .map entries =>
      match ofEntries entries with
      | none => none
      | some xs => if h : (xs.map Prod.fst).Nodup then some { entries := xs, nodup := h } else none
  | _ => none

end Registry

namespace EngineManager

/-! ## The methods on any value -/

/-- `add_engine`, with what it returns. -/
def addEngineTo (engines : Value κ) (library target : Str) (transcoder : κ) :
    Except Fault (Value κ × Value κ) :=
  match initializeIfNeeded engines with
  | .map entries =>
      let e := Value.fetch entries (engineKey library target)
      if e.truthy then .ok (e, .map entries)
      else
        let engine := Value.engine { transcoder := transcoder, state := State.new library }
        .ok (engine, .map (Value.store entries (engineKey library target) engine))
  | _ => .error typeError

def activeEnginesOf (engines : Value κ) : Except Fault (Value κ × Value κ) :=
  match initializeIfNeeded engines with
  | .map entries => .ok (.seq (entries.map Prod.snd), .map entries)
  | _ => .error typeError

def removeEngineFrom (engines : Value κ) (library target : Str) :
    Except Fault (Value κ × Value κ) :=
  match initializeIfNeeded engines with
  | .map entries =>
      .ok (Value.fetch entries (engineKey library target),
        .map (entries.filter fun entry => !entry.1.isKey (engineKey library target)))
  | .seq items =>
      -- `Array#delete` takes an item, and the key is none of a registry
      .ok ((items.find? fun item => item.isKey (engineKey library target)).getD .nil,
        .seq (items.filter fun item => !item.isKey (engineKey library target)))
  | _ => .error typeError

/-- `save_state`, with the value that is dumped. -/
def saveStateOf (engines : Value κ) : Except Fault (Value κ × Value κ) :=
  .ok (initializeIfNeeded engines, initializeIfNeeded engines)

/-- The polling loop on any value.  `odd` is what becomes of it when the value is a hash but no
registry, which depends on the classes of what is in there. -/
def pollEngines (engineOf : κ → Engine τ)
    (odd : List (Value κ × Value κ) → EStateM.Result Fault (Polling κ τ) Unit) (rounds looks : Nat)
    (world : World τ) (engines : Value κ) : EStateM.Result Fault (Polling κ τ) Unit :=
  match Registry.ofValue? engines, engines with
  | some r, _ =>
      pollDirectoryAndEncode engineOf rounds { engines := r, world := world, looks := looks }
  | none, .map entries => odd entries
  | none, _ =>
      -- `each_pair` raises, unless `$do_quit` is set before
      if rounds = 0 ∨ looks = 0 then
        .ok () { engines := .empty, world := world, looks := looks }
      else .error typeError { engines := .empty, world := world, looks := looks - 1 }

/-! ## Calls after `load_state` -/

inductive Op (κ : Type)
  | addEngine (library target : Str) (transcoder : κ)
  | removeEngine (library target : Str)
  | activeEngines
  | saveState

/-- A call on whatever `@engines` is. -/
def Op.call (engines : Value κ) : Op κ → Except Fault (Value κ × Value κ)
  | .addEngine library target transcoder => addEngineTo engines library target transcoder
  | .removeEngine library target => removeEngineFrom engines library target
  | .activeEngines => activeEnginesOf engines
  | .saveState => saveStateOf engines

/-- A call on a registry. -/
def Op.serve (engines : Registry κ) : Op κ → Value κ × Registry κ
  | .addEngine library target transcoder =>
      let r := EngineManager.addEngine engines library target transcoder
      (.engine r.1, r.2)
  | .removeEngine library target =>
      (((engines.find? (engineKey library target)).map Value.engine).getD .nil,
        EngineManager.removeEngine engines library target)
  | .activeEngines => (.seq ((EngineManager.activeEngines engines).map Value.engine), engines)
  | .saveState => (engines.toValue, engines)

/-- What the calls return, one after the other, and what is left in `@engines`. -/
def callAll : List (Op κ) → Value κ → Except Fault (List (Value κ) × Value κ)
  | [], engines => .ok ([], engines)
  | op :: ops, engines =>
      match op.call engines with
      | .error e => .error e
      | .ok (ret, engines') => (callAll ops engines').map fun r => (ret :: r.1, r.2)

def serveAll : List (Op κ) → Registry κ → List (Value κ) × Registry κ
  | [], engines => ([], engines)
  | op :: ops, engines =>
      let r := op.serve engines
      let rest := serveAll ops r.2
      (r.1 :: rest.1, rest.2)

end EngineManager

end Yikes
