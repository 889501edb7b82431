import BarrelAlias.Alias.Job
import BarrelAlias.Barrel.Job
import BarrelAlias.Command.Arguments
import BarrelAlias.Verbosity

/-!
The two commands and what can be asked of them.
-/

namespace BarrelAlias.Command

structure BarrelRequest extends Barrel.Job where
  verbose : Verbosity

structure AliasRequest extends Alias.Job where
  verbose : Verbosity

def quoteNames : List (String × QuoteStyle) :=
  [("single", .single), ("s", .single), ("double", .double), ("d", .double)]

/-- Whether the text is a path; the empty text is none. -/
def isPath (s : String) : Bool := s ≠ ""

def pathOption (word : String) (letter : Option Char) : OptionSpec :=
  ⟨word, letter, true, false, isPath⟩

def writeOption : OptionSpec := ⟨"write", some 'w', false, false, fun _ => true⟩

def quoteOption : OptionSpec :=
  ⟨"quote", some 'q', true, false, fun s => (quoteNames.lookup s).isSome⟩

def verboseOption : OptionSpec :=
  ⟨"verbose", some 'v', true, false, fun s => (Verbosity.names.lookup s).isSome⟩

def excludeOption : OptionSpec := ⟨"exclude", some 'e', true, true, fun _ => true⟩

def Given.quote (g : Given) : QuoteStyle :=
  ((g.value? "quote").bind fun s => quoteNames.lookup s).getD .double

def Given.verbosity (g : Given) : Verbosity :=
  ((g.value? "verbose").bind fun s => Verbosity.names.lookup s).getD .log

namespace BarrelRequest

def options : List OptionSpec :=
  [excludeOption, pathOption "out" (some 'o'), writeOption, quoteOption, verboseOption,
    pathOption "root" none]

/-- Reads the arguments; the output must be given. -/
def parse (args : List String) : Except UsageFault BarrelRequest := do
  let g ← readArguments options true args
  match g.value? "out" with
  | none => throw .missingArgument
  | some out =>
    return { sources := g.plain
             excludes := g.values "exclude"
             out := Path.ofText out
             write := g.has "write"
             quote := g.quote
             verbose := g.verbosity
             root := (g.value? "root").map Path.ofText }

end BarrelRequest

namespace AliasRequest

def options : List OptionSpec :=
  [pathOption "project" (some 'p'), quoteOption, writeOption, verboseOption]

def parse (args : List String) : Except UsageFault AliasRequest := do
  let g ← readArguments options false args
  return { project := Path.ofText ((g.value? "project").getD "tsconfig.json")
           write := g.has "write"
           quote := g.quote
           verbose := g.verbosity }

end AliasRequest

inductive Request
  | barrel (r : BarrelRequest)
  | aliases (r : AliasRequest)

namespace Request

def parse : List String → Except UsageFault Request
  | "gen-index" :: args => (BarrelRequest.parse args).map .barrel
  | "rel-to-alias" :: args => (AliasRequest.parse args).map .aliases
  | ["help"] => .error .helpWanted
  | "help" :: name :: _ =>
    if name ∈ ["gen-index", "rel-to-alias", "help"] then .error .helpWanted
    else .error .unknownCommand
  | [] => .error .missingCommand
  | args =>
    match readArguments [] false args with
    | .error .unknownArgument => .error .unknownCommand
    | .error fault => .error fault
    | .ok _ => .error .missingCommand

def verbosity : Request → Verbosity
  | barrel r => r.verbose
  | aliases r => r.verbose

end Request

end BarrelAlias.Command
