import BarrelAlias.Style
import BarrelAlias.Text.Basic
import BarrelAlias.Warning

/-!
What is printed about aliased specifiers.
-/

namespace BarrelAlias.Alias

/-- One specifier that an alias replaces, with its statement before and after. -/
structure Edit where
  file : Path
  oldSpecifier : String
  newSpecifier : String
  oldStatement : String
  newStatement : String
deriving DecidableEq, Repr

structure Outcome where
  edits : List Edit
  analyzed : Nat
  changed : Nat
  warnings : List Warning
  written : Bool

/-- The edit with its number: the file, and the statement before and after on one line each. -/
def Edit.listing (t : Terminal) (number : Nat) (e : Edit) : String :=
  t.paint .bold (Nat.repr number) ++ " " ++ t.paint .blue (t.shown e.file) ++ ":\n"
    ++ "     " ++ t.paint .red (Text.singleLine e.oldStatement) ++ "\n"
    ++ "  " ++ t.paint .dimmed "->" ++ " " ++ t.paint .green (Text.singleLine e.newStatement)
    ++ "\n"

def listing (t : Terminal) (edits : List Edit) : String :=
  String.join (edits.mapIdx fun i e => e.listing t (i + 1))

namespace Outcome

def summary (o : Outcome) (t : Terminal) : String :=
  let count := t.paint .cyan (Nat.repr o.edits.length)
  let files := t.paint .cyan (Nat.repr o.changed)
  if o.edits.isEmpty then t.paint .boldGreen "✓" ++ " No relative imports to alias\n"
  else if o.written then
    t.paint .boldGreen "✓" ++ " Rewrote " ++ count ++ " imports in " ++ files ++ " files\n"
  else
    t.paint .brightBlue "●" ++ " " ++ count ++ " imports in " ++ files
      ++ " files would be rewritten, pass " ++ t.paint .bold "--write" ++ " to apply\n"

end Outcome

end BarrelAlias.Alias
