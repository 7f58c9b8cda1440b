import Yikes.Ruby.Text

/-!
# OptionParser — how an argument list is read

`OptionParser` calls the blocks of the options it finds, one after the other, and raises at the first
argument it cannot read; what was called before that stays done.  `read` gives the options in this
order, with their values, and the error at the end if there is one.

A short option may have its value attached, and short options without values may be written in one
argument; a long option may be cut short as long as it is still the only one of its list.  Arguments
that are no options are passed over (`parse!`), up to `--`.
-/

namespace Ruby
namespace OptionParser

/-- A switch, as `on` defines it; `argument` says whether a value must follow. -/
structure Switch (ω : Type) where
  option : ω
  short : Option Char := none
  long : Str
  argument : Bool := false
  deriving Repr

inductive ParseError
  | MissingArgument
  | InvalidOption
  | AmbiguousOption
  | NeedlessArgument
  deriving DecidableEq, Repr

/-- An option that was found, with its value. -/
structure Found (ω : Type) where
  option : ω
  value : Option Str
  deriving DecidableEq, Repr

/-- What comes behind the part of an argument that was read. -/
inductive After
  | next
  /-- the following argument was taken as the value -/
  | tookNext
  | terminate
  | raised (error : ParseError)
  deriving DecidableEq, Repr

variable {ω : Type}

/-! ## Finding a switch -/

def searchShort (lists : List (List (Switch ω))) (c : Char) : Option (Switch ω) :=
  lists.flatten.find? fun switch => switch.short = some c

/-- The switches of one list whose long names go on behind `key`. -/
def candidates (icase : Bool) (key : Str) (switches : List (Switch ω)) : List (Switch ω) :=
  switches.filter fun switch =>
    if icase then (Str.downcase key).isPrefixOf (Str.downcase switch.long)
    else key.isPrefixOf switch.long

/-- Of several candidates the shortest is meant, if the others all go on behind it. -/
def completeIn (found : List (Switch ω)) : Option (Except ParseError (Switch ω)) :=
  match found with
  | [] => none
  | switch :: rest =>
      let shortest := rest.foldl (fun x y => if y.long.length < x.long.length then y else x) switch
      if (switch :: rest).all fun y => shortest.long.isPrefixOf y.long then some (.ok shortest)
      else some (.error .AmbiguousOption)

/-- An exact name, or the first list that has candidates. -/
def completeLong (icase : Bool) (lists : List (List (Switch ω))) (key : Str) :
    Except ParseError (Switch ω) :=
  match lists.flatten.find? fun switch => switch.long = key with
  | some switch => .ok switch
  | none =>
      match lists.findSome? fun switches => completeIn (candidates icase key switches) with
      | some found => found
      | none => .error .InvalidOption

/-! ## Reading one argument -/

/-- A value that is attached, or the next argument. -/
def required (switch : Switch ω) (attached next : Option Str) : List (Found ω) × After :=
  match attached, next with
  | some value, _ => ([{ option := switch.option, value := some value }], .next)
  | none, some value => ([{ option := switch.option, value := some value }], .tookNext)
  | none, none => ([], .raised .MissingArgument)

/-- `--key` or `--key=value`, without the hyphens. -/
def readLong (lists : List (List (Switch ω))) (next : Option Str) (text : Str) :
    List (Found ω) × After :=
  let key := text.takeWhile (· != '=')
  let attached := if text.contains '=' then some ((text.dropWhile (· != '=')).drop 1) else none
  if key = [] then
    if attached.isSome then ([], .raised .NeedlessArgument) else ([], .terminate)
  else
    match completeLong true lists key with
    | .error error => ([], .raised error)
    | .ok switch =>
        if switch.argument then required switch attached next
        else if attached.isSome then ([], .raised .NeedlessArgument)
        else ([{ option := switch.option, value := none }], .next)

/-- The text of an argument behind its hyphen.  What follows a short option without a value is read
as another argument with a hyphen. -/
def readSwitches (lists : List (List (Switch ω))) (next : Option Str) :
    Str → List (Found ω) × After
  | [] => ([], .next)
  | c :: text =>
      if c = '-' then readLong lists next text
      else
        -- a letter that no short option has may stand for a long one
        let found : Except ParseError (Switch ω) :=
          match searchShort lists c with
          | some switch => .ok switch
          | none => completeLong false lists [c]
        match found with
        | .error error => ([], .raised error)
        | .ok switch =>
            if switch.argument then
              required switch (if text = [] then none else some text) next
            else if text = [] then ([{ option := switch.option, value := none }], .next)
            else if text.head? = some '=' then ([], .raised .NeedlessArgument)
            else
              let rest := readSwitches lists next text
              ({ option := switch.option, value := none } :: rest.1, rest.2)

/-! ## Reading all arguments -/

/-- The options of an argument list, and the error that ends it. -/
def read (lists : List (List (Switch ω))) : List Str → List (Found ω) × Option ParseError
  | [] => ([], none)
  | arg :: args =>
      if arg.head? = some '-' then
        let r := readSwitches lists args.head? arg.tail
        match r.2, args with
        | .raised error, _ => (r.1, some error)
        | .terminate, _ => (r.1, none)
        | .tookNext, _ :: args =>
            let rest := read lists args
            (r.1 ++ rest.1, rest.2)
        | .tookNext, [] => (r.1, none)
        | .next, args =>
            let rest := read lists args
            (r.1 ++ rest.1, rest.2)
      else read lists args

end OptionParser
end Ruby
