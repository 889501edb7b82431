import BarrelAlias.Ignore.Pattern
import BarrelAlias.Text.Basic

/-!
The lines of ignore files. A line says which entries of a tree are left out, or with an exclamation
mark which are kept after all; the last line that speaks of an entry decides.
-/

namespace BarrelAlias.Ignore

structure Rule where
  patterns : Alternatives
  keeps : Bool
  foldersOnly : Bool

inductive Verdict
  | left
  | kept
deriving DecidableEq, Repr

/-- The line without blanks at its end, unless the last of them is escaped. -/
def trimLine (s : String) : String :=
  if (Text.beforeTail? "\\ " s).isSome then s
  else String.ofList (s.toList.reverse.dropWhile Text.isBlank).reverse

/-- Takes a mark off the start of a text; whether it was there. -/
def eatMark (mark : Char) : List Char → Bool × List Char
  | [] => (false, [])
  | c :: cs => if c = mark then (true, cs) else (false, c :: cs)

/-- Takes the slash off the end of a text together with a backslash before it; whether it was
there. -/
def eatLastSlash (cs : List Char) : Bool × List Char :=
  match cs.reverse with
  | '/' :: '\\' :: rest => (true, rest.reverse)
  | '/' :: rest => (true, rest.reverse)
  | _ => (false, cs)

/-- The pattern of a line in full: one without a slash applies at any depth, and one that ends with
all that lies below a folder does not apply to the folder. -/
def fullPattern (isAnchored : Bool) (cs : List Char) : List Char :=
  let starsFirst := ['*', '*', '/'].isPrefixOf cs || cs = ['*', '*']
  let cs := if isAnchored || cs.contains '/' || starsFirst then cs else '*' :: '*' :: '/' :: cs
  if ['/', '*', '*'].isSuffixOf cs then cs ++ ['/', '*'] else cs

/-- What marks stand before the pattern of a line: whether it keeps, whether it is anchored, and the
pattern. -/
def lineMarks (cs : List Char) : Bool × Bool × List Char :=
  match cs with
  | '\\' :: '!' :: rest => (false, false, '!' :: rest)
  | '\\' :: '#' :: rest => (false, false, '#' :: rest)
  | cs =>
    let (keeps, cs) := eatMark '!' cs
    let (isAnchored, cs) := eatMark '/' cs
    (keeps, isAnchored, cs)

/-- Reads a line; a comment and an empty line say nothing. -/
def Rule.parse (line : String) : Except IgnoreFault (Option Rule) := do
  if Text.beginsWith "#" line then return none
  let line := trimLine line
  if line = "" then return none
  let (keeps, isAnchored, cs) := lineMarks line.toList
  let (foldersOnly, cs) := eatLastSlash cs
  let cs := fullPattern isAnchored cs
  return some ⟨← readPattern (cs.length + 1) .start none cs, keeps, foldersOnly⟩

def linesOf (s : String) : List String :=
  let pieces := s.toList.splitOn '\n'
  let pieces := if pieces.getLast? = some [] then pieces.dropLast else pieces
  pieces.map fun cs => String.ofList (if cs.getLast? = some '\r' then cs.dropLast else cs)

def withoutMark (s : String) : String :=
  String.ofList (s.toList.dropWhile fun c => c.toNat = 0xFEFF)

def rulesOf (file : Path) (s : String) : List Rule × List LineFault :=
  let (rules, faults, _) := (linesOf (withoutMark s)).foldl (fun (rules, faults, n) line =>
    match Rule.parse line with
    | .ok rule => (rules ++ rule.toList, faults, n + 1)
    | .error fault => (rules, faults ++ [⟨file, n, trimLine line, fault⟩], n + 1)) ([], [], 1)
  (rules, faults)

def Rule.covers (r : Rule) (isFolder : Bool) (way : List String) : Bool :=
  (!r.foldersOnly || isFolder) && stands r.patterns (textBytes ("/".intercalate way))

/-- What rules say about an entry: the last one that speaks of it decides. -/
def verdict? (rs : List Rule) (isFolder : Bool) (way : List String) : Option Verdict :=
  (rs.reverse.find? (·.covers isFolder way)).map fun r => if r.keeps then .kept else .left

end BarrelAlias.Ignore
