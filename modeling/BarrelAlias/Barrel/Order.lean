import BarrelAlias.Path

/-!
The order in which a barrel takes its files: a directory before all that lies below it, and in one
directory the index files first.
-/

namespace BarrelAlias.Barrel

/-- The steps to the directory of a path. -/
def folderSteps (p : Path) : List Step := (p.parent?.getD .empty).steps

def isIndex (p : Path) : Bool :=
  match p.fileName? with
  | some n => Text.beginsWith "index." n
  | none => false

def indexRank (p : Path) : Nat := if isIndex p then 0 else 1

/-- By directory, then index files first, then by path. -/
def parentFirst (a b : Path) : Ordering :=
  (compare (folderSteps a) (folderSteps b)).then
    ((compare (indexRank a) (indexRank b)).then (compare a b))

/-- The paths in that order; equal ones keep their order. -/
def sortParentFirst (ps : List Path) : List Path :=
  ps.mergeSort fun a b => (parentFirst a b).isLE

end BarrelAlias.Barrel
