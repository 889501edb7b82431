import BarrelAlias.Config.Comments
import BarrelAlias.Config.Json
import BarrelAlias.Failure
import BarrelAlias.Table

/-!
The configuration of a project: which files belong to it, and which aliases it declares.
-/

namespace BarrelAlias.Config

structure CompilerOptions where
  baseUrl : Option String
  paths : Option (Table String Json)

structure ProjectConfig where
  options : Option CompilerOptions
  files : Option (List String)
  includes : Option (List String)
  excludes : Option (List String)

/-- The declared aliases in their order, each pattern with its targets, and the directory that the
targets are relative to. -/
structure PathMapping where
  baseUrl : String
  paths : List (String × List String)
deriving DecidableEq, Repr

/-- The members of an object by key, if all keys are texts. -/
def namedMembers (ms : List (Option String × Json)) : Option (List (String × Json)) :=
  ms.mapM fun (k, v) => k.map (·, v)

/-- The only member with this key, `null` if there is none; a repeated key is refused. -/
def single (ms : List (String × Json)) (key : String) : Option Json :=
  match ms.filter (·.1 = key) with
  | [] => some .null
  | [m] => some m.2
  | _ => none

def optional {α : Type} (read : Json → Option α) : Json → Option (Option α)
  | .null => some none
  | v => (read v).map some

def readText : Json → Option String
  | .string s => s
  | _ => none

def readTexts : Json → Option (List String)
  | .array vs => vs.mapM readText
  | _ => none

def pathsDepth : Nat := 124

/-- The declared paths; a repeated pattern keeps its place and takes the later targets. -/
def readPaths : Json → Option (Table String Json)
  | .object ms => do
    let ms ← namedMembers ms
    if ms.all fun m => m.2.isSound pathsDepth then
      return ms.foldl (fun t m => t.insert m.1 m.2) .empty
    else none
  | _ => none

def optionsOf (baseUrl paths : Json) : Option CompilerOptions := do
  return ⟨← optional readText baseUrl, ← optional readPaths paths⟩

/-- Options are an object, or the list of their values. -/
def readOptions : Json → Option CompilerOptions
  | .object ms => do
    let ms ← namedMembers ms
    optionsOf (← single ms "baseUrl") (← single ms "paths")
  | .array [baseUrl, paths] => optionsOf baseUrl paths
  | _ => none

def configOf (options files includes excludes : Json) : Option ProjectConfig := do
  return ⟨← optional readOptions options, ← optional readTexts files,
    ← optional readTexts includes, ← optional readTexts excludes⟩

def readConfig : Json → Option ProjectConfig
  | .object ms => do
    let ms ← namedMembers ms
    configOf (← single ms "compilerOptions") (← single ms "files") (← single ms "include")
      (← single ms "exclude")
  | .array [options, files, includes, excludes] => configOf options files includes excludes
  | _ => none

namespace ProjectConfig

/-- Reads the configuration off its text; `config` is the file that a failure names. -/
def parse (config : Path) (s : String) : Except Failure ProjectConfig :=
  match (Json.parse? (stripComments s)).bind readConfig with
  | some c => .ok c
  | none => .error (.configMalformed config)

def targetsOf (config : Path) (pattern : String) (v : Json) :
    Except Failure (String × List String) :=
  match readTexts v with
  | some ts => .ok (pattern, ts)
  | none => .error (.targetsMalformed config pattern)

/-- The declared aliases; both options must be there. -/
def pathMapping (c : ProjectConfig) (config : Path) : Except Failure PathMapping := do
  match c.options with
  | none => throw (.optionMissing config .baseUrl)
  | some options =>
    match options.baseUrl, options.paths with
    | none, _ => throw (.optionMissing config .baseUrl)
    | some _, none => throw (.optionMissing config .paths)
    | some baseUrl, some paths =>
      return ⟨baseUrl, ← paths.entries.mapM fun (p, v) => targetsOf config p v⟩

end ProjectConfig

end BarrelAlias.Config
