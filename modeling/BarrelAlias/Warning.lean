import BarrelAlias.Path

/-!
What a run warns about without failing.
-/

namespace BarrelAlias

inductive Warning
  /-- A clause under a name that other files already export something else under. -/
  | conflict (clause origin : String) (previous : List String)
  /-- A name that only a number could tell apart. -/
  | numbered (name origin given : String)
  | noAliases (config : Path)
deriving DecidableEq, Repr

def Warning.message : Warning → String
  | conflict clause origin previous =>
    "export \x7b " ++ clause ++ " \x7d from " ++ origin ++ " conflicts with "
      ++ ", ".intercalate previous ++ ", qualifying every occurrence"
  | numbered name origin given =>
    "'" ++ name ++ "' from " ++ origin ++ " cannot be qualified from its path alone, using '"
      ++ given ++ "'"
  | noAliases config => "No path aliases declared in " ++ config.text

end BarrelAlias
