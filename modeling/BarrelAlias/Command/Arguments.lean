import BarrelAlias.Text.Basic

/-!
Command line arguments: options with one letter or a word, their values, and what stands by itself.
The value of an option may follow it, in which case it is looked at only when the next option, the
next argument that stands by itself or the end makes clear that it is complete.
-/

namespace BarrelAlias.Command

inductive UsageFault
  | unknownArgument
  | invalidValue
  | tooManyValues
  | argumentConflict
  | missingArgument
  | unknownCommand
  | missingCommand
  /-- Not a fault: the user asks what there is. -/
  | helpWanted
deriving DecidableEq, Repr

def UsageFault.message : UsageFault → String
  | unknownArgument => "there is no such argument"
  | invalidValue => "the value of an option is missing or not one of its values"
  | tooManyValues => "an option without value is given one"
  | argumentConflict => "an option is given more than once"
  | missingArgument => "a required option is missing"
  | unknownCommand => "there is no such command"
  | missingCommand => "a command is missing"
  | helpWanted => "the commands are gen-index and rel-to-alias"

structure OptionSpec where
  word : String
  letter : Option Char
  takesValue : Bool
  /-- Whether the option may be given more than once. -/
  repeats : Bool
  accepts : String → Bool

def helpOption : OptionSpec := ⟨"help", some 'h', false, true, fun _ => true⟩

/-- What the arguments said so far. -/
structure Given where
  options : List (String × String)
  /-- The arguments that stand by themselves. -/
  plain : List String
  /-- An option whose value may still follow, or has just followed. -/
  pending : Option (OptionSpec × Option String)
  /-- Whether `--` has ended the options. -/
  ended : Bool

namespace Given

def nothing : Given := ⟨[], [], none, false⟩

def has (g : Given) (word : String) : Bool := g.options.any (·.1 = word)

def values (g : Given) (word : String) : List String :=
  (g.options.filter (·.1 = word)).map (·.2)

/-- The value of an option that is given at most once. -/
def value? (g : Given) (word : String) : Option String := (g.values word).head?

def enter (g : Given) (o : OptionSpec) (value : String) : Except UsageFault Given :=
  if o.word = helpOption.word then .error .helpWanted
  else if g.has o.word ∧ !o.repeats then .error .argumentConflict
  else if o.takesValue ∧ !o.accepts value then .error .invalidValue
  else .ok { g with options := g.options ++ [(o.word, value)] }

/-- Completes the option whose value may still follow. -/
def resolve (g : Given) : Except UsageFault Given :=
  match g.pending with
  | none => .ok g
  | some (_, none) => .error .invalidValue
  | some (o, some v) => { g with pending := none }.enter o v

/-- Enters an option after the one before it is complete. -/
def enterNext (g : Given) (o : OptionSpec) (value : String) : Except UsageFault Given := do
  (← g.resolve).enter o value

/-- Notes an option whose value is to follow. -/
def await (g : Given) (o : OptionSpec) : Except UsageFault Given := do
  let g ← g.resolve
  return { g with pending := some (o, none) }

end Given

/-- The letters of one argument; the first that takes a value takes the rest as its value. -/
def readLetters (os : List OptionSpec) : List Char → Given → Except UsageFault Given
  | [], g => .ok g
  | c :: cs, g =>
    match os.find? (·.letter = some c) with
    | none => .error .unknownArgument
    | some o =>
      if o.takesValue then
        match cs with
        | [] => g.await o
        | '=' :: cs => g.enterNext o (String.ofList cs)
        | cs => g.enterNext o (String.ofList cs)
      else (g.enterNext o "").bind (readLetters os cs)

/-- An option by its word, with a value after `=` or without. -/
def readWord (os : List OptionSpec) (cs : List Char) (g : Given) : Except UsageFault Given :=
  let word := String.ofList (cs.takeWhile (· ≠ '='))
  match os.find? (·.word = word), cs.dropWhile (· ≠ '=') with
  | none, _ => .error .unknownArgument
  | some o, [] => if o.takesValue then g.await o else g.enterNext o ""
  | some o, _ :: value =>
    if o.takesValue then g.enterNext o (String.ofList value) else .error .tooManyValues

def readPlain (allowed : Bool) (s : String) (g : Given) : Except UsageFault Given :=
  if allowed then do
    let g ← g.resolve
    return { g with plain := g.plain ++ [s] }
  else .error .unknownArgument

def readArgument (os : List OptionSpec) (plainAllowed : Bool) (g : Given) (s : String) :
    Except UsageFault Given :=
  if g.ended then readPlain plainAllowed s g
  else
    match s.toList with
    | ['-', '-'] => .ok { g with ended := true }
    | '-' :: '-' :: cs => readWord os cs g
    | '-' :: c :: cs => readLetters os (c :: cs) g
    | _ =>
      match g.pending with
      | some (o, none) => .ok { g with pending := some (o, some s) }
      | _ => readPlain plainAllowed s g

def readArguments (os : List OptionSpec) (plainAllowed : Bool) (args : List String) :
    Except UsageFault Given := do
  let g ← args.foldlM (readArgument (helpOption :: os) plainAllowed) .nothing
  g.resolve

end BarrelAlias.Command
