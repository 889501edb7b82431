import BarrelAlias.Text.Basic

/-!
Comments and trailing commas in a configuration text. Both are taken out, outside of quoted texts,
before the text is read as JSON.
-/

namespace BarrelAlias.Config

/-- What the next character of a text belongs to. -/
inductive Zone
  | plain
  | quoted
  /-- The character after a backslash in a quoted text. -/
  | escaped
  /-- A comment that ends with its line. -/
  | line
  /-- A comment that ends with a star and a slash; `star` holds after a star. -/
  | block (star : Bool)
deriving DecidableEq, Repr

/-- The first character that is neither blank nor in a comment. -/
def nextSignificant : Zone → List Char → Option Char
  | _, [] => none
  | .line, c :: cs => nextSignificant (if c = '\n' then .plain else .line) cs
  | .block star, c :: cs =>
    nextSignificant (if star && c = '/' then .plain else .block (c = '*')) cs
  | _, '/' :: '/' :: cs => nextSignificant .line cs
  | _, '/' :: '*' :: cs => nextSignificant (.block false) cs
  | _, c :: cs => if Text.isBlank c then nextSignificant .plain cs else some c

/-- Whether a comma before this text closes a list or an object. -/
def isTrailing (cs : List Char) : Bool :=
  match nextSignificant .plain cs with
  | some c => c = '}' || c = ']'
  | none => false

/-- The text without comments and trailing commas; a comment that ends with its line leaves the
line break behind. -/
def strip : Zone → List Char → List Char
  | _, [] => []
  | .line, c :: cs => if c = '\n' then c :: strip .plain cs else strip .line cs
  | .block star, c :: cs =>
    strip (if star && c = '/' then .plain else .block (c = '*')) cs
  | .escaped, c :: cs => c :: strip .quoted cs
  | .quoted, c :: cs =>
    c :: strip (if c = '\\' then .escaped else if c = '"' then .plain else .quoted) cs
  | .plain, '/' :: '/' :: cs => strip .line cs
  | .plain, '/' :: '*' :: cs => strip (.block false) cs
  | .plain, c :: cs =>
    if c = '"' then c :: strip .quoted cs
    else if c = ',' && isTrailing cs then strip .plain cs
    else c :: strip .plain cs

def stripComments (s : String) : String := String.ofList (strip .plain s.toList)

end BarrelAlias.Config
