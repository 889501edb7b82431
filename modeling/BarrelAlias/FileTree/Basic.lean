import BarrelAlias.Failure
import BarrelAlias.Table

/-!
A tree of files and folders. A path leads to a place in it part by part: each part needs a folder to
go on from, even one that goes nowhere.

The tree leaves out what a disk has beside that. There are no links, so that a place has one path
without detours; no permissions, so that every file can be read; and no names that are not texts.
The tree has no current directory either: a path that is not rooted leads nowhere, and commands root
theirs beforehand.
-/

namespace BarrelAlias

/-- What a file holds: a text, or bytes that are none. -/
inductive Content
  | text (s : String)
  | raw (bytes : List UInt8)
deriving DecidableEq, Repr

inductive Node
  | file (content : Content)
  | folder
deriving DecidableEq, Repr

/-- A place in the tree: the names that lead there from the top. -/
abbrev Location := List String

def Location.path (loc : Location) : Path := ⟨true, loc⟩

/-- Files and folders by their place; the top is always there. -/
structure FileTree where
  nodes : Table Location Node
deriving Repr

namespace FileTree

def empty : FileTree := ⟨.empty⟩

instance : Inhabited FileTree := ⟨empty⟩

def node? (t : FileTree) (loc : Location) : Option Node :=
  if loc = [] then some .folder else t.nodes.find? loc

def hasFolder (t : FileTree) (loc : Location) : Bool := t.node? loc = some .folder

def follow (t : FileTree) : Location → List String → Except FileFault Location
  | loc, [] => .ok loc
  | loc, p :: ps =>
    if t.hasFolder loc then
      if p = "" ∨ p = "." then follow t loc ps
      else if p = ".." then follow t loc.dropLast ps
      else if (t.node? (loc ++ [p])).isSome then follow t (loc ++ [p]) ps
      else .error .missing
    else .error .notFolder

def locate (t : FileTree) (p : Path) : Except FileFault Location :=
  if p.rooted then t.follow [] p.parts else .error .missing

def nodeAt? (t : FileTree) (p : Path) : Option Node := (t.locate p).toOption.bind t.node?

def isFile (t : FileTree) (p : Path) : Bool :=
  match t.nodeAt? p with
  | some (.file _) => true
  | _ => false

def isFolder (t : FileTree) (p : Path) : Bool := t.nodeAt? p = some .folder

/-- The one path without detours to the place that a path leads to. -/
def canonical? (t : FileTree) (p : Path) : Option Path := (t.locate p).toOption.map Location.path

/-- The path without detours if it leads somewhere, else the path itself. -/
def canonical (t : FileTree) (p : Path) : Path := (t.canonical? p).getD p

def read (t : FileTree) (p : Path) : Except FileFault String := do
  let loc ← t.locate p
  match t.node? loc with
  | some (.file (.text s)) => return s
  | some (.file (.raw _)) => throw .notText
  | some .folder => throw .isFolder
  | none => throw .missing

def children (t : FileTree) (loc : Location) : List (String × Node) :=
  t.nodes.entries.filterMap fun (l, n) =>
    match l.getLast? with
    | some name => if l.dropLast = loc then some (name, n) else none
    | none => none

end FileTree

end BarrelAlias
