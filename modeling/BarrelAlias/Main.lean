import BarrelAlias.Command.Run

/-!
The command line: reads the files that a command may look at, runs it, prints what it says and
writes what it changed.
-/

namespace BarrelAlias

def readContent (p : Path) : IO Content := do
  let bytes ← IO.FS.readBinFile p.text
  match String.fromUTF8? bytes with
  | some s => return .text s
  | none => return .raw bytes.toList

/-- Adds one file or folder to a tree, and if `deep` all that lies below it. Links are not followed
into folders, so that the walk ends. -/
partial def readNode (deep : Bool) (t : FileTree) (loc : Location) : IO FileTree := do
  let here := (← IO.currentDir).join loc.path.text
  match (← here.symlinkMetadata).type with
  | .file => return t.plant loc (← readContent loc.path)
  | .dir =>
    let t := t.withFolders loc
    if deep then
      (← here.readDir).foldlM (fun t e => readNode true t (loc ++ [e.fileName])) t
    else return t
  | _ => return t

/-- Adds a folder with all that lies below it, and what stands next to the folders above it. -/
def readAround (t : FileTree) (loc : Location) : IO FileTree := do
  let mut t := t
  for n in List.range loc.length do
    let upper := loc.take n
    let here := (← IO.currentDir).join (Location.path upper).text
    for e in ← here.readDir do
      try t ← readNode false t (upper ++ [e.fileName])
      catch _ => pure ()
  readNode true t loc

def Command.Request.folders (folder : Path) : Command.Request → List Path
  | barrel r =>
    let base := folder.join (r.root.getD .empty)
    [base, (base.join r.out).parent?.getD base]
  | aliases r => [(folder.join r.project).parent?.getD folder]

/-- The current directory and the files that a command may look at. -/
def readWorkspace (args : List String) : IO Workspace := do
  let folder := Path.ofText (← IO.currentDir).toString
  let folders :=
    match Command.Request.parse args with
    | .ok r => r.folders folder
    | .error _ => []
  let mut t := FileTree.empty.withFolders folder.parts
  for f in folders do
    try t ← readAround t f.clean.parts
    catch _ => pure ()
  return ⟨t, some folder⟩

/-- Writes the texts that one tree has otherwise than another. -/
def writeChanges (old new : FileTree) : IO Unit := do
  for (loc, node) in new.nodes.entries do
    match node with
    | .file (.text s) =>
      if old.node? loc ≠ some node then
        let staged := loc.path.withFileName (FileTree.stagedName (loc.getLast?.getD ""))
        IO.FS.writeFile staged.text s
        IO.FS.rename staged.text loc.path.text
    | _ => pure ()

/-- Runs a command in the current directory; the answer is its exit code. -/
def runCommand (args : List String) : IO UInt32 := do
  let start ← IO.monoMsNow
  let w ← readWorkspace args
  let ending := Command.execute args w false
  for r in ending.remarks do
    IO.eprintln r.message
  writeChanges w.tree ending.tree
  IO.print (ending.output ⟨(← IO.monoMsNow) - start, 1⟩)
  return UInt32.ofNat ending.exit

end BarrelAlias

def main (args : List String) : IO UInt32 := BarrelAlias.runCommand args
