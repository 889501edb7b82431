/-!
The elementary views of characters and texts: classes of characters, blank characters and what
depends on them, hexadecimal digits, and beginnings and ends that are known.
-/

namespace BarrelAlias.Text

/-! ### Classes of characters

A class is the increasing list of the code points at which membership changes, so that a character
belongs to it exactly when an odd number of them is not above it. -/

/-- The code points where membership changes, in increasing order; code point 0 is outside. -/
abbrev Bounds := Array Nat

def Bounds.has (b : Bounds) (c : Char) : Bool :=
  b.countP (fun p => decide (p ≤ c.toNat)) % 2 == 1

/-! ### Blank characters, words and lines -/

/-- A character with the property of white space in any script. -/
def isBlank (c : Char) : Bool :=
  let n := c.toNat
  (9 ≤ n && n ≤ 13) || n == 0x20 || n == 0x85 || n == 0xA0 || n == 0x1680
    || (0x2000 ≤ n && n ≤ 0x200A) || n == 0x2028 || n == 0x2029 || n == 0x202F || n == 0x205F
    || n == 0x3000

/-- The longest runs of characters that are not blank. -/
def words (s : String) : List String :=
  ((s.toList.splitOnP isBlank).filter (· ≠ [])).map String.ofList

/-- The words of a text, one blank between two of them. -/
def singleLine (s : String) : String := " ".intercalate (words s)

/-- The number of lines; a line break at the very end starts no further line. -/
def lineCount (s : String) : Nat :=
  let pieces := s.toList.splitOn '\n'
  if pieces.getLast? = some [] then pieces.length - 1 else pieces.length

/-! ### Hexadecimal digits -/

def hexDigit? (c : Char) : Option Nat :=
  if c.isDigit then some (c.toNat - 48)
  else if 'a' ≤ c ∧ c ≤ 'f' then some (c.toNat - 87)
  else if 'A' ≤ c ∧ c ≤ 'F' then some (c.toNat - 55)
  else none

def isHexDigit (c : Char) : Bool := (hexDigit? c).isSome

/-- The number that hexadecimal digits spell, unless one of them is no such digit. -/
def hexNumber? (cs : List Char) : Option Nat :=
  cs.foldlM (fun n c => (hexDigit? c).map (n * 16 + ·)) 0

def hexFour (n : Nat) : List Char :=
  [n / 4096 % 16, n / 256 % 16, n / 16 % 16, n % 16].map Nat.digitChar

/-! ### Beginnings and ends -/

/-- What follows `head` in the text, if it begins with `head`. -/
def afterHead? (head s : String) : Option String :=
  (head.toList.isPrefixOf? s.toList).map String.ofList

/-- What stands before `tail` in the text, if it ends with `tail`. -/
def beforeTail? (tail s : String) : Option String :=
  (tail.toList.isSuffixOf? s.toList).map String.ofList

def beginsWith (head s : String) : Bool := head.toList.isPrefixOf s.toList

def replaceChar (a b : Char) (s : String) : String :=
  String.ofList (s.toList.map fun c => if c = a then b else c)

def splitAt (sep : Char) (s : String) : List String :=
  (s.toList.splitOn sep).map String.ofList

end BarrelAlias.Text
