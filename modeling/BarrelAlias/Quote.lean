/-!
The quotes around a module specifier.
-/

namespace BarrelAlias

inductive QuoteStyle
  | single
  | double
deriving DecidableEq, Repr, Inhabited

namespace QuoteStyle

def mark : QuoteStyle → Char
  | single => '\x27'
  | double => '"'

/-- The text between two quotes; nothing in it is escaped. -/
def quote (q : QuoteStyle) (text : String) : String :=
  String.singleton q.mark ++ text ++ String.singleton q.mark

end QuoteStyle

end BarrelAlias
