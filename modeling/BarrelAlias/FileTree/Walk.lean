import BarrelAlias.Extension
import BarrelAlias.Glob.Expand
import BarrelAlias.Ignore.Scope

/-!
The files below a folder, without those that ignore files or their names leave out. A folder that is
left out is not entered.
-/

namespace BarrelAlias.FileTree

structure Walk where
  sources : Ignore.Sources
  /-- Names of entries that are left out wherever they stand. -/
  skipped : List String

/-- The files below a folder, given the scopes from the folder upwards. -/
def filesBelow (t : FileTree) (w : Walk) : Nat → List Ignore.Scope → Location → List Location
  | 0, _, _ => []
  | fuel + 1, scopes, folder =>
    let scopes := (Ignore.scopeOf t w.sources false folder).1 :: scopes
    (t.children folder).flatMap fun (name, node) =>
      let entry := folder ++ [name]
      if name ∈ w.skipped || Ignore.isLeftOut scopes (node = .folder) entry then []
      else
        match node with
        | .file _ => [entry]
        | .folder => filesBelow t w fuel scopes entry

/-- The folders above a place, the nearest first. -/
def foldersAbove (loc : Location) : List Location :=
  (List.range loc.length).reverse.map loc.take

/-- The ways to the files that a walk from a path finds; the path itself if it is a file. Faulty
lines in ignore files above the path stop the walk, those below do not. -/
def walk (t : FileTree) (w : Walk) (p : Path) : Except Failure (List (List String)) := do
  match t.locate p with
  | .error fault => throw (.unwalkable p fault)
  | .ok loc =>
    if t.hasFolder loc then
      let above := (foldersAbove loc).map (Ignore.scopeOf t w.sources true)
      let faults := (above.reverse.map (·.2)).flatten
      if faults.isEmpty then
        return (t.filesBelow w (t.nodes.size + 1) (above.map (·.1)) loc).map (Ignore.wayFrom loc)
      else throw (.badIgnoreLines faults)
    else return [[]]

def wayPath (p : Path) (way : List String) : Path := if way.isEmpty then p else p.join ⟨false, way⟩

def hasExtension (exts : List String) (p : Path) : Bool :=
  match p.extension? with
  | some e => e ∈ exts
  | none => false

/-- All ignore files apply. -/
def sourceWalk : Walk := ⟨⟨true, true, true⟩, []⟩

def sourcesBelow (t : FileTree) (folder : Path) (exts : List String) :
    Except Failure (List Path) := do
  let found ← t.walk sourceWalk folder
  let files := (found.map (wayPath folder)).filter (hasExtension exts)
  return Glob.sortPaths (files.map t.canonical)

end BarrelAlias.FileTree
