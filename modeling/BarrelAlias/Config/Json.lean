import BarrelAlias.Text.Basic

/-!
JSON values. A value is read in full even where nobody asks for it, so two faults that only matter
to someone who wants the value are kept in it: a quoted text whose escapes spell no characters, and
a number too large to be held.
-/

namespace BarrelAlias.Config

inductive Json
  | null
  | bool (b : Bool)
  /-- A number, and whether a double can hold it. -/
  | number (fits : Bool)
  /-- A quoted text, unless its escapes spell half of a character. -/
  | string (value : Option String)
  | array (items : List Json)
  /-- The members in the order in which they stand, repeated keys included. -/
  | object (members : List (Option String × Json))
deriving Repr, Inhabited

namespace Json

/-- Blanks between the tokens of JSON. -/
def isGap (c : Char) : Bool := c = ' ' || c = '\t' || c = '\n' || c = '\r'

def skipGaps (cs : List Char) : List Char := cs.dropWhile isGap

/-- One unit of a quoted text: a character, or one half of a character spelled by an escape. -/
inductive Unit16
  | char (c : Char)
  | high (n : Nat)
  | low (n : Nat)

def Unit16.ofNat (n : Nat) : Unit16 :=
  if 0xD800 ≤ n ∧ n < 0xDC00 then .high n
  else if 0xDC00 ≤ n ∧ n < 0xE000 then .low n
  else .char (Char.ofNat n)

/-- The characters that units spell, if no half of a character is left over. -/
def joinUnits : List Unit16 → Option (List Char)
  | [] => some []
  | .char c :: us => (joinUnits us).map (c :: ·)
  | .high h :: .low l :: us =>
    (joinUnits us).map (Char.ofNat (0x10000 + (h - 0xD800) * 0x400 + (l - 0xDC00)) :: ·)
  | _ => none

def simpleEscape? : Char → Option Char
  | '"' => some '"'
  | '\\' => some '\\'
  | '/' => some '/'
  | 'b' => some (Char.ofNat 8)
  | 'f' => some (Char.ofNat 12)
  | 'n' => some '\n'
  | 'r' => some '\r'
  | 't' => some '\t'
  | _ => none

/-- The units of a quoted text after its first quote, and what follows its last. -/
def quoted : List Char → Option (List Unit16 × List Char)
  | [] => none
  | '"' :: cs => some ([], cs)
  | '\\' :: 'u' :: a :: b :: c :: d :: cs => do
    let n ← Text.hexNumber? [a, b, c, d]
    let (us, rest) ← quoted cs
    return (Unit16.ofNat n :: us, rest)
  | '\\' :: c :: cs => do
    let e ← simpleEscape? c
    let (us, rest) ← quoted cs
    return (.char e :: us, rest)
  | c :: cs =>
    if c.toNat < 32 || c = '\\' then none
    else do
      let (us, rest) ← quoted cs
      return (.char c :: us, rest)

def text (cs : List Char) : Option (Option String × List Char) := do
  let (us, rest) ← quoted cs
  return ((joinUnits us).map String.ofList, rest)

/-- The digits at the start, of which there must be one. -/
def digits (cs : List Char) : Option (List Char × List Char) :=
  match cs.takeWhile Char.isDigit with
  | [] => none
  | ds => some (ds, cs.dropWhile Char.isDigit)

def ofDigits (ds : List Char) : Nat := ds.foldl (fun n d => n * 10 + (d.toNat - 48)) 0

/-- The least number that rounds to no finite double. -/
def doubleBound : Nat := Nat.pow 2 1024 - Nat.pow 2 970

/-- Whether the digits, with the point moved `e` places to the right, spell a number that rounds to
a finite double. Its length decides, but for numbers as long as the bound. -/
def fitsDouble (ds : List Char) (e : Int) : Bool :=
  let ds := ds.dropWhile (· = '0')
  let length : Int := ds.length + e
  if ds.isEmpty || length ≤ 308 then true
  else if length > 309 then false
  else decide (ofDigits ds * Nat.pow 10 e.toNat < doubleBound * Nat.pow 10 (-e).toNat)

def fraction : List Char → Option (List Char × List Char)
  | '.' :: cs => digits cs
  | cs => some ([], cs)

def exponent : List Char → Option (Int × List Char)
  | c :: cs =>
    if c = 'e' || c = 'E' then
      match cs with
      | '-' :: cs => (digits cs).map fun (ds, rest) => (-(ofDigits ds : Int), rest)
      | '+' :: cs => (digits cs).map fun (ds, rest) => ((ofDigits ds : Int), rest)
      | cs => (digits cs).map fun (ds, rest) => ((ofDigits ds : Int), rest)
    else some (0, c :: cs)
  | [] => some (0, [])

/-- A number without its sign; no digit may follow a leading zero. -/
def unsigned (cs : List Char) : Option (Bool × List Char) := do
  let (whole, rest) ← digits cs
  if whole.head? = some '0' ∧ whole.length > 1 then none
  else
    let (frac, rest) ← fraction rest
    let (e, rest) ← exponent rest
    return (fitsDouble (whole ++ frac) (e - frac.length), rest)

mutual

/-- Reads a value that is nested at most `fuel` deep. -/
def value : Nat → List Char → Option (Json × List Char)
  | 0, _ => none
  | fuel + 1, cs =>
    match skipGaps cs with
    | '{' :: cs =>
      match skipGaps cs with
      | '}' :: rest => some (.object [], rest)
      | cs => (members fuel cs).map fun (ms, rest) => (.object ms, rest)
    | '[' :: cs =>
      match skipGaps cs with
      | ']' :: rest => some (.array [], rest)
      | cs => (items fuel cs).map fun (vs, rest) => (.array vs, rest)
    | '"' :: cs => (text cs).map fun (s, rest) => (.string s, rest)
    | '-' :: cs => (unsigned cs).map fun (b, rest) => (.number b, rest)
    | 't' :: 'r' :: 'u' :: 'e' :: rest => some (.bool true, rest)
    | 'f' :: 'a' :: 'l' :: 's' :: 'e' :: rest => some (.bool false, rest)
    | 'n' :: 'u' :: 'l' :: 'l' :: rest => some (.null, rest)
    | cs => (unsigned cs).map fun (b, rest) => (.number b, rest)

def items : Nat → List Char → Option (List Json × List Char)
  | 0, _ => none
  | fuel + 1, cs => do
    let (v, rest) ← value fuel cs
    match skipGaps rest with
    | ']' :: rest => return ([v], rest)
    | ',' :: rest =>
      let (vs, rest) ← items fuel rest
      return (v :: vs, rest)
    | _ => none

def members : Nat → List Char → Option (List (Option String × Json) × List Char)
  | 0, _ => none
  | fuel + 1, cs =>
    match skipGaps cs with
    | '"' :: cs => do
      let (key, rest) ← text cs
      match skipGaps rest with
      | ':' :: rest =>
        let (v, rest) ← value fuel rest
        match skipGaps rest with
        | '}' :: rest => return ([(key, v)], rest)
        | ',' :: rest =>
          let (ms, rest) ← members fuel rest
          return ((key, v) :: ms, rest)
        | _ => none
      | _ => none
    | _ => none

end

def parse? (s : String) : Option Json := do
  let cs := s.toList
  let (v, rest) ← value (2 * cs.length + 2) cs
  if skipGaps rest = [] then some v else none

mutual

/-- Whether every text and number in the value can be held, and it is nested at most `depth`
deep. -/
def isSound : Nat → Json → Bool
  | _, null => true
  | _, bool _ => true
  | _, number fits => fits
  | _, string v => v.isSome
  | 0, array _ => false
  | 0, object _ => false
  | depth + 1, array vs => areSound depth vs
  | depth + 1, object ms => membersAreSound depth ms

def areSound : Nat → List Json → Bool
  | _, [] => true
  | depth, v :: vs => isSound depth v && areSound depth vs

def membersAreSound : Nat → List (Option String × Json) → Bool
  | _, [] => true
  | depth, (k, v) :: ms => k.isSome && isSound depth v && membersAreSound depth ms

end

end Json

end BarrelAlias.Config
