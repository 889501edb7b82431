import BarrelAlias.Style
import BarrelAlias.Text.Basic
import BarrelAlias.Warning

/-!
What is printed about a barrel.
-/

namespace BarrelAlias.Barrel

/-- A name that was found overloaded, with the origins that bring it. -/
structure Conflict where
  name : String
  origins : List String
deriving DecidableEq, Repr

structure Outcome where
  text : String
  output : Path
  files : List Path
  conflicts : List Conflict
  warnings : List Warning
  written : Bool

namespace Outcome

def preview (o : Outcome) : String := o.text ++ "\n"

/-- The line that says where the barrel went or would go. -/
def headline (o : Outcome) (t : Terminal) : String :=
  let target := t.paint .blue (t.shown o.output)
  let lines := t.paint .cyan (Nat.repr (Text.lineCount o.text))
  if o.written then
    t.paint .boldGreen "✓" ++ " Wrote " ++ target ++ " (" ++ lines ++ " lines)\n"
  else
    t.paint .brightBlue "●" ++ " Preview of " ++ target ++ " (" ++ lines ++ " lines), pass "
      ++ t.paint .bold "--write" ++ " to write it\n"

def conflictLine (t : Terminal) (c : Conflict) : String :=
  "  " ++ t.paint .bold c.name ++ " " ++ t.paint .dimmed "from" ++ " "
    ++ ", ".intercalate c.origins ++ "\n"

def conflictLines (o : Outcome) (t : Terminal) : String :=
  if o.conflicts.isEmpty then ""
  else
    t.paint .boldYellow "⚠" ++ " " ++ t.paint .boldYellow (Nat.repr o.conflicts.length)
      ++ " overloaded names were qualified:\n" ++ String.join (o.conflicts.map (conflictLine t))

/-- What became of the barrel, and which names it had to qualify. -/
def summary (o : Outcome) (t : Terminal) : String := o.headline t ++ o.conflictLines t

end Outcome

end BarrelAlias.Barrel
