import BarrelAlias.Alias.Source
import BarrelAlias.Config.ProjectFiles
import BarrelAlias.FileTree.Write
import BarrelAlias.Workspace

/-!
Aliases in all files of a project. Every file must parse before anything is written; then the files
with edits are written one after the other.
-/

namespace BarrelAlias.Alias

open Config (ProjectConfig)

/-- A project whose relative specifiers are to be replaced. -/
structure Job where
  /-- The configuration of the project. -/
  project : Path
  write : Bool
  quote : QuoteStyle

structure Revision where
  file : Path
  text : String
  edits : List Edit

def shortenFile (t : FileTree) (d : Directory) (quote : QuoteStyle) (file : Path) :
    Except Failure Revision :=
  match t.read file with
  | .error _ => .error (.unreadable file)
  | .ok source => (shorten d quote file source).map fun (text, edits) => ⟨file, text, edits⟩

def writeAll (t : FileTree) : List Revision → Except Failure Unit × FileTree
  | [] => (.ok (), t)
  | r :: rs =>
    match t.replaceFile r.file r.text with
    | (.ok (), t) => writeAll t rs
    | (.error f, t) => (.error f, t)

structure Plan where
  revisions : List Revision
  warnings : List Warning

namespace Plan

def changed (p : Plan) : List Revision := p.revisions.filter (!·.edits.isEmpty)

/-- The plan once it is carried out, or without. -/
def outcome (p : Plan) (written : Bool) : Outcome where
  edits := p.revisions.flatMap (·.edits)
  analyzed := p.revisions.length
  changed := p.changed.length
  warnings := p.warnings
  written := written

end Plan

namespace Job

/-- Reads the configuration and all files of the project. Where several files fail, the first one in
the list is reported; working on them side by side may report any of them. -/
def plan (j : Job) (w : Workspace) : Except Failure Plan := do
  let config ← w.absolute j.project
  let c ← ProjectConfig.load w.tree config
  let mapping ← c.pathMapping config
  let folder := config.parent?.getD .top
  let d := Directory.build folder mapping
  let files ← c.projectFiles w.tree folder
  let revisions ← files.mapM (shortenFile w.tree d j.quote)
  return ⟨revisions, if d.entries.isEmpty then [.noAliases config] else []⟩

/-- Finds the edits, and writes the files that have some if asked to. -/
def run (j : Job) (w : Workspace) : Except Failure Outcome × FileTree :=
  match j.plan w with
  | .error f => (.error f, w.tree)
  | .ok p =>
    if j.write then
      match writeAll w.tree p.changed with
      | (.ok (), t) => (.ok (p.outcome true), t)
      | (.error f, t) => (.error f, t)
    else (.ok (p.outcome false), w.tree)

end Job

end BarrelAlias.Alias
