import BarrelAlias.FileTree.Basic

/-!
Changes to a tree. A text replaces a file in one step: it is staged under a name of its own next to
the file, and the staged file is moved over it; if that fails, the staged file is taken away again.

A write fails for the name of the file or for its folder, and then it changes nothing. A write that
breaks off half-way, as on a full disk, is left out. It would leave the staged file behind, which is
taken away only where the move fails.
-/

namespace BarrelAlias.FileTree

/-- The longest name that a file can have, in bytes. -/
def maxNameBytes : Nat := 255

/-- Whether a part of a path can be the name of a file. -/
def isName (part : String) : Bool :=
  part ≠ "" && part ≠ "." && part ≠ ".." && part.utf8ByteSize ≤ maxNameBytes
    && !part.toList.contains (Char.ofNat 0)

/-- The place of a file that a path names, whether it exists or not; its folder must. -/
def target? (t : FileTree) (p : Path) : Option Location :=
  match p.parts.getLast? with
  | some name =>
    if isName name then
      match t.locate { p with parts := p.parts.dropLast } with
      | .ok folder => if t.hasFolder folder then some (folder ++ [name]) else none
      | .error _ => none
    else none
  | none => none

/-- The place of a file that can be written: where a path leads and no folder stands. -/
def writable? (t : FileTree) (p : Path) : Option Location :=
  (t.target? p).filter fun loc => !t.hasFolder loc

def putFile (t : FileTree) (loc : Location) (c : Content) : FileTree :=
  ⟨t.nodes.insert loc (.file c)⟩

/-- Writes a text to a file, if its name and its folder allow that; the whole text or nothing. -/
def write? (t : FileTree) (p : Path) (s : String) : Option FileTree :=
  (t.writable? p).map fun loc => t.putFile loc (.text s)

def erase (t : FileTree) (loc : Location) : FileTree := ⟨t.nodes.erase loc⟩

def removeFile? (t : FileTree) (p : Path) : Option FileTree :=
  match t.locate p with
  | .ok loc =>
    match t.node? loc with
    | some (.file _) => some (t.erase loc)
    | _ => none
  | .error _ => none

def removeFolder? (t : FileTree) (p : Path) : Option FileTree :=
  match t.locate p with
  | .ok loc => if t.hasFolder loc && (t.children loc).isEmpty then some (t.erase loc) else none
  | .error _ => none

/-- Moves a file over another one, if the latter can be written. -/
def moveFile? (t : FileTree) (source target : Path) : Option FileTree :=
  match t.locate source, t.writable? target with
  | .ok loc, some new =>
    match t.node? loc with
    | some (.file c) => some ((t.erase loc).putFile new c)
    | _ => none
  | _, _ => none

def stagedName (name : String) : String := "." ++ name ++ ".tstf-tmp"

/-- Replaces a file by a text in one step. -/
def replaceFile (t : FileTree) (p : Path) (s : String) : Except Failure Unit × FileTree :=
  match p.fileName? with
  | none => (.error (.unnamed p), t)
  | some name =>
    let staged := p.withFileName (stagedName name)
    match t.write? staged s with
    | none => (.error (.notWritten staged), t)
    | some t' =>
      match t'.moveFile? staged p with
      | some t'' => (.ok (), t'')
      | none => (.error (.notReplaced p), (t'.removeFile? staged).getD t')

def withFolders (t : FileTree) (loc : Location) : FileTree :=
  (List.range loc.length).foldl (fun t n =>
    let upper := loc.take (n + 1)
    if (t.node? upper).isSome then t else ⟨t.nodes.insert upper .folder⟩) t

/-- Puts a file at a place together with the folders that lead there. -/
def plant (t : FileTree) (loc : Location) (c : Content) : FileTree :=
  (t.withFolders loc.dropLast).putFile loc c

end BarrelAlias.FileTree
