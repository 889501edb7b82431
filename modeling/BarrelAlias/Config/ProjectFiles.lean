import BarrelAlias.Config.Project
import BarrelAlias.FileTree.Walk

/-!
The files that belong to a project: those that its configuration lists, and those below it that an
include pattern names and no exclude pattern does.
-/

namespace BarrelAlias.Config

/-- Project patterns do not tell small from capital letters, and only a slash stands for a slash. -/
def projectStrictness : Glob.Strictness := ⟨false, true⟩

def withoutHere : List Char → List Char
  | '.' :: '/' :: cs => withoutHere cs
  | cs => cs

def withoutSlashes (cs : List Char) : List Char := (cs.reverse.dropWhile (· = '/')).reverse

/-- The patterns that an entry stands for. One without wildcards names a folder or a file, and all
that lies below it. -/
def variants (entry : String) : List String :=
  let cs := withoutSlashes (withoutHere entry.toList)
  let s := String.ofList cs
  if cs.any fun c => c = '*' || c = '?' || c = '[' then [s] else [s, s ++ "/**/*"]

def compile (s : String) : Except Failure Glob.Pattern :=
  match Glob.Pattern.parse s with
  | .ok p => .ok p
  | .error fault => .error (.badGlob s fault)

def compileAll (entries : List String) : Except Failure (List Glob.Pattern) :=
  (entries.flatMap variants).mapM compile

def anyMatches (ps : List Glob.Pattern) (way : List String) : Bool :=
  ps.any (·.matches projectStrictness ("/".intercalate way))

/-- Only the exclude file of a repository applies, and some folders are never entered. -/
def projectWalk : FileTree.Walk := ⟨⟨false, false, true⟩, Extension.skippedFolders⟩

namespace ProjectConfig

/-- The include patterns: everything if neither they nor files are listed. -/
def includeEntries (c : ProjectConfig) : List String :=
  match c.includes with
  | some entries => entries
  | none => if c.files.isSome then [] else ["**/*"]

def projectFiles (c : ProjectConfig) (t : FileTree) (folder : Path) :
    Except Failure (List Path) := do
  let includes ← compileAll c.includeEntries
  let excludes ← compileAll (c.excludes.getD [])
  let listed := ((c.files.getD []).map fun f => folder.join (Path.ofText f)).filter t.isFile
  let ways ← t.walk projectWalk folder
  let found := ways.filter fun way =>
    FileTree.hasExtension Extension.scripts (FileTree.wayPath folder way)
      && anyMatches includes way && !anyMatches excludes way
  return Glob.sortPaths (listed ++ found.map (FileTree.wayPath folder))

def load (t : FileTree) (config : Path) : Except Failure ProjectConfig :=
  match t.read config with
  | .ok s => parse config s
  | .error fault => .error (.configUnreadable config fault)

end ProjectConfig

end BarrelAlias.Config
