import BarrelAlias.Path

/-!
The dialects of scripts. The name of a file says in which dialect it is written.
-/

namespace BarrelAlias.Script

structure Dialect where
  types : Bool
  /-- Elements written in angle brackets. -/
  elements : Bool
  /-- A module, in which `await` is a word of its own; else a plain script. -/
  isModule : Bool
  ambient : Bool
deriving DecidableEq, Repr

def holdsDefinitionMark : List Char → Bool
  | '.' :: 'd' :: '.' :: _ => true
  | _ :: cs => holdsDefinitionMark cs
  | [] => false

def Dialect.ofPath (file : Path) : Dialect :=
  let ext := file.extension?
  let isDefinition := (file.fileName?.map fun n => holdsDefinitionMark n.toList).getD false
  { types := isDefinition || ext ∈ [some "ts", some "tsx", some "mts", some "cts"]
    elements := ext ∈ [some "tsx", some "jsx"]
    isModule := ext ∉ [some "cjs", some "cts"]
    ambient := isDefinition }

end BarrelAlias.Script
