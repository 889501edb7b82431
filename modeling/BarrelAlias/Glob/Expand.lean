import BarrelAlias.FileTree.Basic
import BarrelAlias.Glob.Pattern

/-!
The files that a glob pattern names in a tree. The pattern is taken apart at its slashes, and each
part is matched against the names in one folder.
-/

namespace BarrelAlias.Glob

/-- A pattern taken apart at its slashes. -/
structure Route where
  parts : List Pattern
  /-- Whether a slash ends the pattern, so that it names folders only. -/
  foldersOnly : Bool

def routeStrictness : Strictness := ⟨true, false⟩

/-- The texts between the slashes, without an empty one at the very end. -/
def routeTexts (cs : List Char) : List String :=
  let pieces := cs.splitOn '/'
  let pieces := if pieces.getLast? = some [] then pieces.dropLast else pieces
  pieces.map String.ofList

/-- Takes an absolute pattern apart; all of it must be a pattern, and so must each part. -/
def Route.parse (s : String) : Except GlobFault Route := do
  let _ ← Pattern.parse s
  let cs := s.toList
  let below := cs.drop 1
  let parts ← if below.isEmpty then pure [⟨[]⟩] else (routeTexts below).mapM Pattern.parse
  return ⟨parts, cs.getLast? = some '/'⟩

/-- The parts after a row of parts that stand for any number of folders. -/
def dropRecursive : List Pattern → List Pattern
  | [] => []
  | p :: ps => if p.isRecursive then dropRecursive ps else p :: ps

/-- The name of a directory entry: a dot for the folder itself, two for the one above it. -/
def dotNames : List String := [".", ".."]

/-- Whether the pattern begins with a dot, so that it can name a folder by dots. -/
def beginsWithDot (p : Pattern) : Bool := p.pieces.head? = some (.char '.')

mutual

/-- The paths that the parts name, looked for from `path`. -/
def search (t : FileTree) : Nat → List Pattern → Path → List Path
  | 0, _, _ => []
  | _, [], path => [path]
  | fuel + 1, p :: ps, path =>
    match p.literal? with
    | some s =>
      let next := path.join ⟨false, [s]⟩
      let found := if s ∈ dotNames then t.isFolder path else (t.nodeAt? next).isSome
      if found then search t fuel ps next else []
    | none =>
      match t.locate path with
      | .ok loc =>
        if t.hasFolder loc then
          let named := (t.children loc).flatMap fun (name, node) =>
            visit t fuel (p :: ps) (path.join ⟨false, [name]⟩) name node
          let dotted :=
            if beginsWithDot p then
              (dotNames.filter (p.matches routeStrictness)).flatMap fun s =>
                search t fuel ps (path.join ⟨false, [s]⟩)
            else []
          named ++ dotted
        else []
      | .error _ => []

def visit (t : FileTree) : Nat → List Pattern → Path → String → Node → List Path
  | 0, _, _, _, _ => []
  | _, [], path, _, _ => [path]
  | fuel + 1, p :: ps, path, name, node =>
    if p.isRecursive then
      let below := if node = .folder then search t fuel (p :: ps) path else []
      match dropRecursive ps with
      | [] => if node = .folder then path :: below else []
      | q :: qs =>
        if q.matches routeStrictness name then below ++ search t fuel qs path else below
    else if p.matches routeStrictness name then search t fuel ps path
    else []

end

def searchFuel (t : FileTree) (r : Route) : Nat := (2 * t.nodes.size + 4) * (r.parts.length + 1)

def Route.paths (r : Route) (t : FileTree) : List Path :=
  let found := search t (searchFuel t r) r.parts .top
  if r.foldersOnly then found.filter t.isFolder else found

def anchored (base : Path) (pattern : String) : String :=
  if Text.beginsWith "/" pattern then pattern else (base.join (Path.ofText pattern)).text

def filesOf (t : FileTree) (base : Path) (pattern : String) : Except Failure (List Path) :=
  match Route.parse (anchored base pattern) with
  | .ok r => .ok ((r.paths t).filter t.isFile)
  | .error fault => .error (.badGlob pattern fault)

/-- The paths in order, each once. -/
def sortPaths (ps : List Path) : List Path :=
  let sorted := ps.mergeSort fun a b => (compare a b).isLE
  sorted.foldr (fun p rest =>
    match rest with
    | q :: _ => if p.same q then p :: rest.drop 1 else p :: rest
    | [] => [p]) []

def expand (t : FileTree) (base : Path) (patterns : List String) : Except Failure (List Path) := do
  let found ← patterns.mapM (filesOf t base)
  return sortPaths (found.flatten.map t.canonical)

end BarrelAlias.Glob
