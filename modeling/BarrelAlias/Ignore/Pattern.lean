import BarrelAlias.Failure

/-!
The patterns of ignore files. They are matched byte by byte against the way from the folder of the
ignore file. A group in braces offers several patterns, so a line stands for a list of plain ones.
-/

namespace BarrelAlias.Ignore

def charBytes (c : Char) : List Nat := (String.singleton c).toUTF8.toList.map UInt8.toNat

def textBytes (s : String) : List Nat := s.toList.flatMap charBytes

def slash : Nat := 47

inductive Piece
  | byte (n : Nat)
  /-- Any byte but a slash. -/
  | anyByte
  /-- Any bytes but slashes. -/
  | anyBytes
  /-- Any folders at the start of a way. -/
  | foldersFirst
  /-- Any folders within a way, with the slashes around them. -/
  | foldersBetween
  | allBelow
  /-- One byte in one of these ranges, or in none of them. -/
  | oneOf (negated : Bool) (ranges : List (Nat × Nat))
deriving DecidableEq, Repr

/-- The plain patterns that a text stands for. -/
abbrev Alternatives := List (List Piece)

/-- A group in braces: the branches that are complete, and the one that is being read. -/
structure Group where
  done : List Alternatives
  current : Alternatives

/-- What has been read: the group that is open, and those around it. -/
structure Reading where
  inner : Group
  outer : List Group
  /-- Whether a bracket that opens no class has been seen; then brackets stand for themselves. -/
  literalBrackets : Bool

namespace Reading

def start : Reading := ⟨⟨[], [[]]⟩, [], false⟩

def push (r : Reading) (ps : List Piece) : Reading :=
  { r with inner := { r.inner with current := r.inner.current.map (· ++ ps) } }

def pop (r : Reading) : Reading :=
  { r with inner := { r.inner with current := r.inner.current.map List.dropLast } }

def last? (r : Reading) : Option Piece := r.inner.current.head?.bind List.getLast?

def isFresh (r : Reading) : Bool := r.inner.current.all List.isEmpty

def openGroup (r : Reading) : Reading :=
  { r with inner := ⟨[], [[]]⟩, outer := r.inner :: r.outer }

/-- Goes on to the next branch of a group; outside of groups a comma stands for itself. -/
def nextBranch (r : Reading) : Reading :=
  if r.outer.isEmpty then r.push [.byte 44]
  else { r with inner := ⟨r.inner.done ++ [r.inner.current], [[]]⟩ }

/-- Closes a group: what stands before it goes on with any of its branches that is not empty. -/
def closeGroup (r : Reading) : Except IgnoreFault Reading :=
  match r.outer with
  | [] => .error .unopened
  | g :: gs =>
    let branches := (r.inner.done ++ [r.inner.current]).flatten.filter (!·.isEmpty)
    let branches := if branches.isEmpty then [[]] else branches
    let joined := g.current.flatMap fun before => branches.map (before ++ ·)
    .ok { r with inner := { g with current := joined }, outer := gs }

end Reading

def byteRanges (first last : Char) : List (Nat × Nat) :=
  if first = last then (charBytes first).map fun b => (b, b)
  else
    match (charBytes first).reverse, charBytes last with
    | b :: bs, d :: ds => bs.map (fun x => (x, x)) ++ [(b, d)] ++ ds.map fun x => (x, x)
    | _, _ => []

/-- The ranges of a class up to its closing bracket; `inRange` after a hyphen that may open a range.
No result means that the class does not end. -/
def classRanges : Bool → Bool → List (Char × Char) → List Char →
    Except IgnoreFault (Option (List (Char × Char) × List Char))
  | _, _, _, [] => .ok none
  | isFirst, inRange, ranges, c :: cs =>
    if c = ']' && !isFirst then
      .ok (some (if inRange then ranges ++ [('-', '-')] else ranges, cs))
    else if c = '-' && !isFirst && !inRange then classRanges false true ranges cs
    else if inRange then
      match ranges.getLast? with
      | some (a, _) =>
        if c < a then .error (.range a c)
        else classRanges false false (ranges.dropLast ++ [(a, c)]) cs
      | none => classRanges false false (ranges ++ [(c, c)]) cs
    else classRanges false false (ranges ++ [(c, c)]) cs

/-- A class after its opening bracket, and what follows it. -/
def readClass (cs : List Char) : Except IgnoreFault (Option (Piece × List Char)) := do
  let (negated, cs) :=
    match cs with
    | '!' :: rest => (true, rest)
    | '^' :: rest => (true, rest)
    | rest => (false, rest)
  match ← classRanges true false [] cs with
  | some (ranges, rest) =>
    return some (.oneOf negated (ranges.flatMap fun (a, b) => byteRanges a b), rest)
  | none => return none

/-- Whether two stars may stand for folders here: after a slash or at the start of a branch. -/
def startsPart (r : Reading) (before : Option Char) : Bool :=
  before = some '/' || (!r.outer.isEmpty && (before = some ',' || before = some '{'))

/-- Two stars in a row: folders where they fill the place between slashes, else any bytes. Returns
what is left of the text, and the character before it. -/
def readStars (r : Reading) (before : Option Char) (cs : List Char) :
    Reading × Option Char × List Char :=
  let plain := (r.push [.anyBytes, .anyBytes], some '*', cs)
  if r.isFresh then
    match cs with
    | [] => (r.push [.foldersFirst], some '*', [])
    | '/' :: rest => (r.push [.foldersFirst], some '/', rest)
    | _ => plain
  else if startsPart r before then
    let folders (p : Piece) : Reading :=
      if r.last? ∈ [some .foldersFirst, some .allBelow] then r else r.pop.push [p]
    match cs with
    | [] => (folders .allBelow, some '*', [])
    | '/' :: rest => (folders .foldersBetween, some '/', rest)
    | c :: _ =>
      if (c = ',' || c = '}') && !r.outer.isEmpty then (folders .allBelow, some '*', cs) else plain
  else plain

/-- Reads a pattern; `before` is the character before the next one. -/
def readPattern : Nat → Reading → Option Char → List Char → Except IgnoreFault Alternatives
  | 0, _, _, _ => .ok []
  | fuel + 1, r, before, cs =>
    match cs with
    | [] => if r.outer.isEmpty then .ok r.inner.current else .error .unclosed
    | '?' :: cs => readPattern fuel (r.push [.anyByte]) (some '?') cs
    | '*' :: '*' :: cs =>
      let (r, before, cs) := readStars r before cs
      readPattern fuel r before cs
    | '*' :: cs => readPattern fuel (r.push [.anyBytes]) (some '*') cs
    | '{' :: cs => readPattern fuel r.openGroup (some '{') cs
    | '}' :: cs => do readPattern fuel (← r.closeGroup) (some '}') cs
    | ',' :: cs => readPattern fuel r.nextBranch (some ',') cs
    | '\\' :: c :: cs => readPattern fuel (r.push ((charBytes c).map .byte)) (some c) cs
    | ['\\'] => .error .dangling
    | c :: cs => do
      if c = '[' && !r.literalBrackets then
        match ← readClass cs with
        | some (p, rest) => readPattern fuel (r.push [p]) (some ']') rest
        | none => readPattern fuel { r.push [.byte 91] with literalBrackets := true } (some c) cs
      else readPattern fuel (r.push ((charBytes c).map .byte)) (some c) cs

/-- The texts that can be left after any bytes but slashes. -/
def afterBytes : List Nat → List (List Nat)
  | [] => [[]]
  | b :: bs => (b :: bs) :: (if b = slash then [] else afterBytes bs)

def afterSlashes : List Nat → List (List Nat)
  | [] => []
  | b :: bs => if b = slash then bs :: afterSlashes bs else afterSlashes bs

/-- A text and all that can be left of it. -/
def endings : List Nat → List (List Nat)
  | [] => [[]]
  | b :: bs => (b :: bs) :: endings bs

def accepts : List Piece → List Nat → Bool
  | [], bs => bs.isEmpty
  | .anyBytes :: ps, bs => (afterBytes bs).any (accepts ps)
  | .foldersFirst :: ps, bs => (bs :: afterSlashes bs).any (accepts ps)
  | .foldersBetween :: ps, b :: bs => b = slash && (bs :: afterSlashes bs).any (accepts ps)
  | .allBelow :: ps, b :: bs => b = slash && (endings bs).any (accepts ps)
  | .byte n :: ps, b :: bs => b = n && accepts ps bs
  | .anyByte :: ps, b :: bs => b ≠ slash && accepts ps bs
  | .oneOf negated ranges :: ps, b :: bs =>
    (ranges.any fun (x, y) => x ≤ b && b ≤ y) ≠ negated && accepts ps bs
  | _ :: _, [] => false

/-- Whether one of the alternatives stands for a way; two stars alone stand for every way. -/
def stands (as : Alternatives) (way : List Nat) : Bool :=
  as = [[.foldersFirst]] || as.any (accepts · way)

end BarrelAlias.Ignore
