import BarrelAlias.Barrel.Draft
import BarrelAlias.Barrel.Order
import BarrelAlias.FileTree.Walk
import BarrelAlias.FileTree.Write
import BarrelAlias.Workspace

/-!
Making a barrel in a workspace. All files are chosen, read and parsed before anything is written,
and only the output is ever written.
-/

namespace BarrelAlias.Barrel

open Linkage (Load Loader preload)

structure Job where
  /-- Globs of the files to take; none means all files next to the output. -/
  sources : List String
  /-- Globs of the files to leave out. -/
  excludes : List String
  out : Path
  write : Bool
  quote : QuoteStyle
  /-- The directory that globs and output are relative to. -/
  root : Option Path

/-- What goes into a barrel, and where it goes. -/
structure Plan where
  output : Path
  folder : Path
  files : List Path
  /-- The files that are never read. -/
  excluded : List Path

/-- The output as an absolute path; its folder must be there. -/
def outputPath (t : FileTree) (base out : Path) : Except Failure Path :=
  let joined := base.join out
  match joined.fileName? with
  | none => .error (.outputUnnamed out)
  | some name =>
    let folder := joined.parent?.getD base
    match t.canonical? folder with
    | some folder => .ok (folder.join ⟨false, [name]⟩)
    | none => .error (.outputFolderMissing folder)

/-- Whether a file can go into the barrel. Only extensions that a specifier may leave out can. -/
def isInput (output : Path) (excluded : List Path) (file : Path) : Bool :=
  !file.same output && !excluded.any file.same && FileTree.hasExtension Extension.barrel file

namespace Job

/-- The directory that relative paths start from. -/
def base (j : Job) (w : Workspace) : Except Failure Path := w.absolute (j.root.getD .empty)

def candidates (j : Job) (t : FileTree) (base folder : Path) : Except Failure (List Path) :=
  if j.sources.isEmpty then t.sourcesBelow folder Extension.barrel
  else Glob.expand t base j.sources

/-- Chooses the files; there must be one. -/
def plan (j : Job) (w : Workspace) : Except Failure Plan := do
  let base ← j.base w
  let output ← outputPath w.tree base j.out
  let folder := output.parent?.getD base
  let candidates ← j.candidates w.tree base folder
  let excluded ← Glob.expand w.tree base j.excludes
  let files := sortParentFirst (candidates.filter (isInput output excluded))
  if files.isEmpty then throw (.noSources output)
  return { output, folder, files, excluded }

end Job

def Plan.draft (p : Plan) (t : FileTree) : Except Failure Draft :=
  let load : Load Draft := do
    preload t p.files
    Draft.ofFiles t p.folder p.files
  (load.run.run (.sealing p.excluded)).1

namespace Job

/-- Makes the barrel without writing it. -/
def make (j : Job) (w : Workspace) : Except Failure Outcome := do
  let p ← j.plan w
  let d ← p.draft w.tree
  return { text := d.text j.quote
           output := p.output
           files := p.files
           conflicts := d.conflicts
           warnings := d.allWarnings
           written := false }

def run (j : Job) (w : Workspace) : Except Failure Outcome × FileTree :=
  match j.make w with
  | .error f => (.error f, w.tree)
  | .ok o =>
    if j.write then
      match w.tree.replaceFile o.output o.text with
      | (.ok (), t) => (.ok { o with written := true }, t)
      | (.error f, t) => (.error f, t)
    else (.ok o, w.tree)

end Job

end BarrelAlias.Barrel
