import BarrelAlias.FileTree.Basic
import BarrelAlias.Style

/-!
Where a command runs: a tree of files and a current directory in it.
-/

namespace BarrelAlias

structure Workspace where
  tree : FileTree
  /-- The current directory; it may have been taken away. -/
  folder : Option Path

namespace Workspace

/-- The path as seen from the current directory, without detours if it leads somewhere. -/
def absolute (w : Workspace) (p : Path) : Except Failure Path :=
  match w.folder with
  | some folder => .ok (w.tree.canonical (folder.join p))
  | none => .error .noCurrentFolder

def terminal (w : Workspace) (colour : Bool) : Terminal := ⟨colour, w.folder⟩

end Workspace

end BarrelAlias
