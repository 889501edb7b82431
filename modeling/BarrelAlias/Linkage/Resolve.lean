import BarrelAlias.Extension
import BarrelAlias.FileTree.Basic

/-!
From a specifier to a file. A specifier that is neither relative nor absolute leads to no file.
-/

namespace BarrelAlias.Linkage

/-- The paths that are tried for a specifier that leads to `p`, the first file winning: the path
itself, with an extension added, the source that it is emitted from, and an index file below it. -/
def probes (p : Path) : List Path :=
  p :: (Extension.probed.map fun ext => Path.ofText (p.text ++ "." ++ ext))
    ++ (Extension.sourcesOf (p.extension?.getD "")).map p.withExtension
    ++ Extension.indexFiles.map fun name => p.join ⟨false, [name]⟩

def fileFor? (t : FileTree) (p : Path) : Option Path := ((probes p).find? t.isFile).map t.canonical

def isPlaced (specifier : String) : Bool :=
  Text.beginsWith "." specifier || Text.beginsWith "/" specifier

def namedPath (file : Path) (specifier : String) : Path :=
  ((file.parent?.getD .top).join (Path.ofText specifier)).clean

def resolve? (t : FileTree) (file : Path) (specifier : String) : Option Path :=
  if isPlaced specifier then fileFor? t (namedPath file specifier) else none

/-- The answers to earlier questions, by the file and the specifier in it. -/
abbrev Resolved := Table (List Step × String) (Option Path)

/-- The file that a specifier leads to, as it was when it was first asked for. -/
def resolveOnce (t : FileTree) (known : Resolved) (file : Path) (specifier : String) :
    Option Path × Resolved :=
  match known.find? (file.steps, specifier) with
  | some answer => (answer, known)
  | none =>
    let answer := resolve? t file specifier
    (answer, known.insert (file.steps, specifier) answer)

end BarrelAlias.Linkage
