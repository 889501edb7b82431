import BarrelAlias.Text.Bytes
import BarrelAlias.Text.Identifier

/-!
Tokens of a script, and the characters between them.
-/

namespace BarrelAlias.Script

/-- A token. What a word means depends on where it stands, so keywords are words too. -/
inductive Token
  /-- A name or a keyword; `escaped` if it is spelled with escapes. -/
  | word (text : String) (escaped : Bool)
  | privateName (text : String)
  | number
  /-- A quoted text; `whole` if it holds no half of a character. -/
  | quoted (value : String) (whole : Bool)
  /-- A piece of a template: `opens` if an expression follows it, `sound` if its escapes are. -/
  | template (opens sound : Bool)
  | regex
  | symbol (text : String)
  | ending
deriving DecidableEq, Repr

structure Lexeme where
  token : Token
  span : Text.Span
  /-- Whether a line break stands between the token and the one before it. -/
  newline : Bool
  /-- The text from the token on. -/
  source : List Char
  rest : List Char
deriving Repr

def braceOpen : String := "\x7b"

def braceClose : String := "\x7d"

def isLineBreak (c : Char) : Bool :=
  c = '\n' || c = '\r' || c.toNat = 0x2028 || c.toNat = 0x2029

/-- Whether the character is blank within a line. -/
def isSpace (c : Char) : Bool :=
  let n := c.toNat
  n = 0x20 || n = 9 || n = 11 || n = 12 || n = 0xA0 || n = 0x85 || n = 0x1680
    || (0x2000 ≤ n && n ≤ 0x200B) || n = 0x202F || n = 0x205F || n = 0x3000 || n = 0xFEFF

/-- What a character between two tokens belongs to. -/
inductive GapZone
  | blank
  | line
  | block (star : Bool)

/-- The end of a gap: whether it holds a line break, its length in bytes, and what follows it. -/
structure Gap where
  newline : Bool
  bytes : Nat
  rest : List Char

/-- Skips blanks and comments. In a plain script (`marks`) the marks `<!--` and, first on a line,
`-->` open a comment too. A comment that does not end is no gap. -/
def skipGap (marks : Bool) : GapZone → Bool → Nat → List Char → Option Gap
  | .block _, _, _, [] => none
  | .line, newline, n, [] => some ⟨newline, n, []⟩
  | .blank, newline, n, [] => some ⟨newline, n, []⟩
  | .block star, newline, n, c :: cs =>
    if star && c = '/' then skipGap marks .blank newline (n + 1) cs
    else skipGap marks (.block (c = '*')) (newline || isLineBreak c) (n + c.utf8Size) cs
  | .line, newline, n, c :: cs =>
    if isLineBreak c then skipGap marks .blank true (n + c.utf8Size) cs
    else skipGap marks .line newline (n + c.utf8Size) cs
  | .blank, newline, n, '/' :: '/' :: cs => skipGap marks .line newline (n + 2) cs
  | .blank, newline, n, '/' :: '*' :: cs => skipGap marks (.block false) newline (n + 2) cs
  | .blank, newline, n, '<' :: '!' :: '-' :: '-' :: cs =>
    if marks then skipGap marks .line newline (n + 4) cs
    else some ⟨newline, n, '<' :: '!' :: '-' :: '-' :: cs⟩
  | .blank, newline, n, '-' :: '-' :: '>' :: cs =>
    if marks && newline then skipGap marks .line newline (n + 3) cs
    else some ⟨newline, n, '-' :: '-' :: '>' :: cs⟩
  | .blank, newline, n, c :: cs =>
    if isLineBreak c then skipGap marks .blank true (n + c.utf8Size) cs
    else if isSpace c then skipGap marks .blank newline (n + c.utf8Size) cs
    else some ⟨newline, n, c :: cs⟩

end BarrelAlias.Script
