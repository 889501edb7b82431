import BarrelAlias.FileTree.Basic
import BarrelAlias.Ignore.Rule

/-!
Which ignore files apply to an entry: those of its folder and of all folders above. A file `.ignore`
always applies; `.gitignore` and the exclude file apply only within a repository, and those above
the top of the repository do not.

Only ignore files in the tree count: the global ignore file that a user may have set up for all
repositories is left out. A `.git` file that names its folder by a path that is not rooted leads
nowhere here, as the tree has no current directory to read it against.
-/

namespace BarrelAlias.Ignore

structure Sources where
  ignoreFiles : Bool
  gitIgnoreFiles : Bool
  gitExclude : Bool

structure Scope where
  folder : Location
  rules : List Rule
  gitRules : List Rule
  excludeRules : List Rule
  isRepository : Bool

def rulesAt (t : FileTree) (p : Path) : List Rule × List LineFault :=
  match t.read p with
  | .ok s => rulesOf p s
  | .error _ => ([], [])

def firstLine (s : String) : String := (linesOf s).headD ""

/-- The folder that holds what belongs to a repository. Where `.git` is a file, it names a folder
whose file `commondir` names that folder. -/
def repositoryFolder? (t : FileTree) (folder : Path) : Option Path :=
  let git := folder.join ⟨false, [".git"]⟩
  if t.isFile git then do
    let line ← (t.read git).toOption
    let target ← Text.afterHead? "gitdir: " (firstLine line)
    let real := Path.ofText target
    let line ← (t.read (real.join ⟨false, ["commondir"]⟩)).toOption
    let common := Path.ofText (firstLine line)
    return if Text.beginsWith "." (firstLine line) then real.join common else common
  else some git

/-- The ignore files of a folder, with their lines that are no patterns. -/
def scopeOf (t : FileTree) (src : Sources) (isAbove : Bool) (loc : Location) :
    Scope × List LineFault :=
  let folder := loc.path
  let file (name : String) : Path := folder.join ⟨false, [name]⟩
  let (rules, faults) := if src.ignoreFiles then rulesAt t (file ".ignore") else ([], [])
  let (gitRules, gitFaults) :=
    if src.gitIgnoreFiles then rulesAt t (file ".gitignore") else ([], [])
  let (excludeRules, excludeFaults) :=
    match repositoryFolder? t folder with
    | some git =>
      if src.gitExclude then rulesAt t (git.join ⟨false, ["info", "exclude"]⟩) else ([], [])
    | none => ([], [])
  let holds := (t.nodeAt? (file ".git")).isSome || (t.nodeAt? (file ".jj")).isSome
  let asked := if isAbove then src.gitIgnoreFiles else src.gitIgnoreFiles || src.gitExclude
  (⟨loc, rules, gitRules, excludeRules, asked && holds⟩, faults ++ gitFaults ++ excludeFaults)

def wayFrom (folder entry : Location) : List String := entry.drop folder.length

/-- The scopes up to the top of the nearest repository, that one included. -/
def repositoryScopes : List Scope → List Scope
  | [] => []
  | s :: ss => if s.isRepository then [s] else s :: repositoryScopes ss

/-- What the nearest of several scopes that speaks of an entry says about it. -/
def nearest? (scopes : List Scope) (rules : Scope → List Rule) (isFolder : Bool)
    (entry : Location) : Option Verdict :=
  scopes.findSome? fun s => verdict? (rules s) isFolder (wayFrom s.folder entry)

/-- Whether an entry is left out, given the scopes from its folder upwards. -/
def isLeftOut (scopes : List Scope) (isFolder : Bool) (entry : Location) : Bool :=
  let inRepository := if scopes.any (·.isRepository) then repositoryScopes scopes else []
  let verdict :=
    (nearest? scopes (·.rules) isFolder entry).or
      ((nearest? inRepository (·.gitRules) isFolder entry).or
        (nearest? inRepository (·.excludeRules) isFolder entry))
  verdict = some .left

end BarrelAlias.Ignore
