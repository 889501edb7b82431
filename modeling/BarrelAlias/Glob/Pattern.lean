import BarrelAlias.Failure

/-!
Glob patterns. A question mark stands for one character, a star for any characters, a class in
brackets for one of several characters, and two stars between slashes for any number of folders.
-/

namespace BarrelAlias.Glob

inductive ClassItem
  | one (c : Char)
  | range (first last : Char)
deriving DecidableEq, Repr

inductive Piece
  | char (c : Char)
  | anyChar
  | anySequence
  /-- Any number of folders, the slash after them included. -/
  | anyFolders
  | oneOf (items : List ClassItem)
  | noneOf (items : List ClassItem)
deriving DecidableEq, Repr

structure Pattern where
  pieces : List Piece
deriving DecidableEq, Repr

def classItems : List Char → List ClassItem
  | a :: '-' :: b :: cs => .range a b :: classItems cs
  | a :: cs => .one a :: classItems cs
  | [] => []

/-- A class after its opening bracket, and what follows it. A closing bracket right after the
opening one belongs to the class. -/
def classPiece (cs : List Char) : Option (Piece × List Char) :=
  let items (first : Char) (cs : List Char) (piece : List ClassItem → Piece) :=
    match cs.dropWhile (· ≠ ']') with
    | _ :: rest => some (piece (classItems (first :: cs.takeWhile (· ≠ ']'))), rest)
    | [] => none
  match cs with
  | '!' :: c :: cs => items c cs .noneOf
  | ['!'] => none
  | c :: cs => items c cs .oneOf
  | [] => none

/-- Reads the pieces of a pattern; `before` is the character before the next one. Two stars must
stand alone between slashes. -/
def readPieces : Nat → Option Char → List Char → Except GlobFault (List Piece)
  | 0, _, _ => .ok []
  | fuel + 1, before, cs =>
    match cs with
    | [] => .ok []
    | '?' :: cs => do return .anyChar :: (← readPieces fuel (some '?') cs)
    | '*' :: '*' :: '*' :: _ => .error .wildcards
    | '*' :: '*' :: cs =>
      if before.isNone || before = some '/' then
        match cs with
        | '/' :: cs => do return .anyFolders :: (← readPieces fuel (some '/') cs)
        | [] => .ok [.anyFolders]
        | _ => .error .recursive
      else .error .recursive
    | '*' :: cs => do return .anySequence :: (← readPieces fuel (some '*') cs)
    | '[' :: cs =>
      match classPiece cs with
      | some (p, rest) => do return p :: (← readPieces fuel (some ']') rest)
      | none => .error .range
    | c :: cs => do return .char c :: (← readPieces fuel (some c) cs)

def Pattern.parse (s : String) : Except GlobFault Pattern :=
  let cs := s.toList
  (readPieces (cs.length + 1) none cs).map Pattern.mk

structure Strictness where
  /-- Whether small and capital letters of ASCII differ. -/
  caseSensitive : Bool
  /-- Whether only a slash in the pattern stands for a slash. -/
  literalSlash : Bool

def Strictness.same (o : Strictness) (a b : Char) : Bool :=
  if o.caseSensitive || a.toNat ≥ 128 || b.toNat ≥ 128 then a = b else a.toLower = b.toLower

def ClassItem.has (o : Strictness) (c : Char) : ClassItem → Bool
  | one d => o.same c d
  | range first last =>
    (first ≤ c && c ≤ last) ||
      (!o.caseSensitive && c.toNat < 128 && first.isAlpha && last.isAlpha
        && first.toLower ≤ c.toLower && c.toLower ≤ last.toLower)

def Piece.takes (o : Strictness) (c : Char) : Piece → Bool
  | char d => o.same c d
  | anyChar => !(o.literalSlash && c = '/')
  | oneOf items => !(o.literalSlash && c = '/') && items.any (ClassItem.has o c)
  | noneOf items => !(o.literalSlash && c = '/') && !items.any (ClassItem.has o c)
  | anySequence => false
  | anyFolders => false

/-- The texts that can be left after any characters. -/
def afterSequence (o : Strictness) : List Char → List (List Char)
  | [] => [[]]
  | c :: cs => (c :: cs) :: (if o.literalSlash && c = '/' then [] else afterSequence o cs)

/-- The texts that follow a slash, and the empty text at the end. -/
def afterSlashes : List Char → List (List Char)
  | [] => [[]]
  | c :: cs => if c = '/' then cs :: afterSlashes cs else afterSlashes cs

/-- The texts that can be left after any number of folders: all of it, what follows a slash, or
nothing. -/
def afterFolders (cs : List Char) : List (List Char) := cs :: afterSlashes cs

def accepts (o : Strictness) : List Piece → List Char → Bool
  | [], cs => cs.isEmpty
  | .anySequence :: ps, cs => (afterSequence o cs).any (accepts o ps)
  | .anyFolders :: ps, cs => (afterFolders cs).any (accepts o ps)
  | _ :: _, [] => false
  | p :: ps, c :: cs => p.takes o c && accepts o ps cs

def Pattern.matches (p : Pattern) (o : Strictness) (s : String) : Bool :=
  accepts o p.pieces s.toList

/-- The character that a piece spells, if it is no wildcard. -/
def Piece.char? : Piece → Option Char
  | char c => some c
  | _ => none

/-- The text that the pattern spells, if it has no wildcards. -/
def Pattern.literal? (p : Pattern) : Option String := (p.pieces.mapM Piece.char?).map String.ofList

def Pattern.isRecursive (p : Pattern) : Bool := .anyFolders ∈ p.pieces

end BarrelAlias.Glob
