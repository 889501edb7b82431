import BarrelAlias.Path

/-!
Texts for the terminal: colours, and paths as seen from the current directory.
-/

namespace BarrelAlias

inductive Emphasis
  | bold
  | dimmed
  | red
  | green
  | blue
  | cyan
  | brightBlue
  | boldGreen
  | boldYellow
deriving DecidableEq, Repr

def Emphasis.codes : Emphasis → String
  | bold => "1"
  | dimmed => "2"
  | red => "31"
  | green => "32"
  | blue => "34"
  | cyan => "36"
  | brightBlue => "94"
  | boldGreen => "1;32"
  | boldYellow => "1;33"

/-- Where a report is printed: with colours or without, and from which directory. -/
structure Terminal where
  colour : Bool
  folder : Option Path

namespace Terminal

/-- The text with an emphasis, if there are colours. -/
def paint (t : Terminal) (e : Emphasis) (s : String) : String :=
  if t.colour then "\x1b[" ++ e.codes ++ "m" ++ s ++ "\x1b[0m" else s

/-- The path as seen from the current directory. -/
def shown (t : Terminal) (p : Path) : String :=
  match t.folder.bind p.relativeTo? with
  | some rel => rel.text
  | none => p.text

end Terminal

end BarrelAlias
