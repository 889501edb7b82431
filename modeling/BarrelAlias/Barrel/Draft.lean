import BarrelAlias.Barrel.Registry
import BarrelAlias.Barrel.Report
import BarrelAlias.Linkage.Exports

/-!
A barrel in the making. Files are taken one after the other; each export goes into the registry
under the name that the barrel gives it, and what clashes is noted.
-/

namespace BarrelAlias.Barrel

open Linkage (ExportMap Load exportsOf)

/-- One declaration that a file exports: under which name in the file, and under which name the
barrel takes it. -/
structure Export where
  name : String
  exported : String
  decl : DeclId
deriving DecidableEq, Repr

/-- The name that the barrel takes an export under. -/
def nameIn (file : Path) (exported : String) : String :=
  if exported = "default" then defaultName file else exported

def exportList (file : Path) (m : ExportMap) : List Export :=
  m.sorted.flatMap fun (exported, ids) => ids.map fun id => ⟨nameIn file exported, exported, id⟩

structure Draft where
  registry : Registry
  conflicts : List Conflict
  warnings : List Warning

namespace Draft

def empty : Draft := ⟨.empty, [], []⟩

def add (origin : String) (d : Draft) (e : Export) : Draft :=
  match d.registry.register e.name e.exported e.decl origin with
  | (.conflict previous, r) =>
    { registry := r
      conflicts := d.conflicts ++ [⟨e.name, previous ++ [origin]⟩]
      warnings := d.warnings ++ [.conflict (clauseText e.exported e.name) origin previous] }
  | (_, r) => { d with registry := r }

def addFile (outDir : Path) (d : Draft) (file : Path) (m : ExportMap) : Draft :=
  (exportList file m).foldl (add (specifierOf outDir file)) d

def ofFiles (t : FileTree) (outDir : Path) (files : List Path) : Load Draft :=
  files.foldlM (fun d file => do return d.addFile outDir file (← exportsOf t file)) empty

def text (d : Draft) (quote : QuoteStyle) : String := "\n".intercalate (d.registry.render quote)

/-- The warnings in the order in which they come up. -/
def allWarnings (d : Draft) : List Warning := d.warnings ++ d.registry.renderWarnings

end Draft

end BarrelAlias.Barrel
