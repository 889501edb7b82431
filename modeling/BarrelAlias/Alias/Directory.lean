import BarrelAlias.Config.Project

/-!
Directories and the aliases that stand for them. A lookup takes the first directory whose text
begins the resolved path, so that overlapping directories are told apart by the order of their
declaration and not by their length.
-/

namespace BarrelAlias.Alias

/-- A directory and the alias that replaces it. -/
structure Entry where
  folder : String
  short : String
deriving DecidableEq, Repr

/-- The aliased directories in the order of their declaration. -/
structure Directory where
  entries : List Entry
deriving DecidableEq, Repr

/-- A pattern or target without the `/*` that ends it. -/
def withoutWildcard (s : String) : String := (Text.beforeTail? "/*" s).getD s

/-- Gives a directory an alias; one that is already there keeps its place and takes the new
alias. -/
def assign (folder short : String) : List Entry → List Entry
  | [] => [⟨folder, short⟩]
  | e :: es => if e.folder = folder then ⟨folder, short⟩ :: es else e :: assign folder short es

namespace Directory

def folderOf (base : Path) (target : String) : String :=
  (base.join (Path.ofText (withoutWildcard target))).clean.slashed

/-- Every declared pair of a directory and its alias, in declaration order. -/
def declared (configDir : Path) (m : Config.PathMapping) : List (String × String) :=
  let base := (configDir.join (Path.ofText m.baseUrl)).clean
  m.paths.flatMap fun (pattern, targets) =>
    targets.map fun t => (folderOf base t, withoutWildcard pattern)

def build (configDir : Path) (m : Config.PathMapping) : Directory :=
  ⟨(declared configDir m).foldl (fun es d => assign d.1 d.2 es) []⟩

def resolved (dir : Path) (rel : String) : String := (dir.join (Path.ofText rel)).clean.slashed

/-- The aliased form of a path, if a directory begins it. -/
def aliasOf? (d : Directory) (path : String) : Option String :=
  d.entries.findSome? fun e => (Text.afterHead? e.folder path).map (e.short ++ ·)

/-- The aliased form of the relative specifier `rel` in a file in `dir`. -/
def aliasFor? (d : Directory) (dir : Path) (rel : String) : Option String :=
  d.aliasOf? (resolved dir rel)

end Directory

end BarrelAlias.Alias
