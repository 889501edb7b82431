import BarrelAlias.Script.Token
import BarrelAlias.Text.Basic

/-!
Quoted texts of a script, and the escapes in them. An escape may spell one half of a character; two
halves that belong together give the character, and one that is left over is written as U+FFFD with
its four hexadecimal digits.
-/

namespace BarrelAlias.Script

inductive CodeUnit
  | char (c : Char)
  | high (n : Nat)
  | low (n : Nat)
  /-- A half that is spelled on its own and joins no other. -/
  | alone (n : Nat)
deriving DecidableEq, Repr

def CodeUnit.ofFour (n : Nat) : CodeUnit :=
  if 0xD800 ≤ n ∧ n < 0xDC00 then .high n
  else if 0xDC00 ≤ n ∧ n < 0xE000 then .low n
  else .char (Char.ofNat n)

def CodeUnit.ofPoint (n : Nat) : CodeUnit :=
  if 0xD800 ≤ n ∧ n < 0xE000 then .alone n else .char (Char.ofNat n)

def joinHalves : List CodeUnit → List CodeUnit
  | .high h :: .low l :: us =>
    .char (Char.ofNat (0x10000 + (h - 0xD800) * 0x400 + (l - 0xDC00))) :: joinHalves us
  | u :: us => u :: joinHalves us
  | [] => []

def replacement : Char := Char.ofNat 0xFFFD

def halfText (n : Nat) : List Char := replacement :: Text.hexFour n

/-- The characters of a unit; where halves are written out (`marked`), U+FFFD is written
likewise. -/
def CodeUnit.chars (marked : Bool) : CodeUnit → List Char
  | char c => if marked ∧ c = replacement then halfText 0xFFFD else [c]
  | high n => halfText n
  | low n => halfText n
  | alone n => halfText n

def CodeUnit.isChar : CodeUnit → Bool
  | char _ => true
  | _ => false

def unitsText (us : List CodeUnit) : String :=
  let us := joinHalves us
  String.ofList (us.flatMap (CodeUnit.chars (us.any (!·.isChar))))

def unitsAreWhole (us : List CodeUnit) : Bool := (joinHalves us).all (·.isChar)

/-- The rest of a quoted text: its units, the characters it takes, and what follows it. -/
structure QuotedRest where
  units : List CodeUnit
  taken : List Char
  rest : List Char

/-- Puts a unit and the characters that spell it in front. -/
def QuotedRest.after (q : QuotedRest) (us : List CodeUnit) (cs : List Char) : QuotedRest :=
  { q with units := us ++ q.units, taken := cs ++ q.taken }

def octalDigit? (c : Char) : Option Nat := if '0' ≤ c ∧ c ≤ '7' then some (c.toNat - 48) else none

/-- The unit of a character after a backslash that opens no longer escape. -/
def simpleEscape (c : Char) : CodeUnit :=
  match c with
  | 'n' => .char '\n'
  | 't' => .char '\t'
  | 'r' => .char '\r'
  | 'b' => .char (Char.ofNat 8)
  | 'v' => .char (Char.ofNat 11)
  | 'f' => .char (Char.ofNat 12)
  | c => .char c

def octalUnit (digits : List Nat) : CodeUnit := .char (Char.ofNat (digits.foldl (· * 8 + ·) 0))

/-- Reads a quoted text up to the quote that ends it; `code` holds the digits of a code point whose
brace is not yet closed. A line break ends no quoted text unless a backslash stands before it. -/
def quotedRest (quote : Char) : Option (List Char) → List Char → Option QuotedRest
  | _, [] => none
  | some ds, '}' :: cs => do
    let n ← Text.hexNumber? ds
    if ds.isEmpty || n > 0x10FFFF then none
    else return (← quotedRest quote none cs).after [.ofPoint n] ['}']
  | some ds, c :: cs =>
    if Text.isHexDigit c then do
      return (← quotedRest quote (some (ds ++ [c])) cs).after [] [c]
    else none
  | none, '\\' :: 'u' :: '{' :: cs => do
    return (← quotedRest quote (some []) cs).after [] ['\\', 'u', '{']
  | none, '\\' :: 'u' :: a :: b :: c :: d :: cs => do
    let n ← Text.hexNumber? [a, b, c, d]
    return (← quotedRest quote none cs).after [.ofFour n] ['\\', 'u', a, b, c, d]
  | none, '\\' :: 'x' :: a :: b :: cs => do
    let n ← Text.hexNumber? [a, b]
    return (← quotedRest quote none cs).after [.char (Char.ofNat n)] ['\\', 'x', a, b]
  | none, '\\' :: '\r' :: '\n' :: cs => do
    return (← quotedRest quote none cs).after [] ['\\', '\r', '\n']
  | none, '\\' :: c :: cs =>
    if c = 'u' || c = 'x' then none
    else if isLineBreak c then do
      return (← quotedRest quote none cs).after [] ['\\', c]
    else
      match octalDigit? c, cs with
      | some x, d :: e :: cs =>
        match octalDigit? d, octalDigit? e with
        | some y, some z =>
          if x < 4 then do
            return (← quotedRest quote none cs).after [octalUnit [x, y, z]] ['\\', c, d, e]
          else do
            return (← quotedRest quote none (e :: cs)).after [octalUnit [x, y]] ['\\', c, d]
        | some y, none => do
          return (← quotedRest quote none (e :: cs)).after [octalUnit [x, y]] ['\\', c, d]
        | none, _ => do
          return (← quotedRest quote none (d :: e :: cs)).after [octalUnit [x]] ['\\', c]
      | some x, cs => do
        return (← quotedRest quote none cs).after [octalUnit [x]] ['\\', c]
      | none, cs => do
        return (← quotedRest quote none cs).after [simpleEscape c] ['\\', c]
  | none, c :: cs =>
    if c = quote then some ⟨[], [c], cs⟩
    else if c = '\n' || c = '\r' || c = '\\' then none
    else do
      return (← quotedRest quote none cs).after [.char c] [c]

/-- Whether the text after a backslash is an escape that a template without a tag may hold. -/
def isTemplateEscape : List Char → Bool
  | 'u' :: '{' :: cs =>
    let ds := cs.takeWhile Text.isHexDigit
    !ds.isEmpty && (cs.dropWhile Text.isHexDigit).head? = some '}'
      && ((Text.hexNumber? ds).map fun n => decide (n ≤ 0x10FFFF)).getD false
  | 'u' :: a :: b :: c :: d :: _ => (Text.hexNumber? [a, b, c, d]).isSome
  | 'u' :: _ => false
  | 'x' :: a :: b :: _ => (Text.hexNumber? [a, b]).isSome
  | 'x' :: _ => false
  | '0' :: c :: _ => !c.isDigit
  | c :: _ => !c.isDigit || c = '0'
  | [] => true

structure TemplateRest where
  opens : Bool
  sound : Bool
  taken : List Char
  rest : List Char

/-- Reads a template up to the quote that ends it or the brace that opens an expression. -/
def templateRest : List Char → Option TemplateRest
  | [] => none
  | '\\' :: c :: cs => do
    let t ← templateRest cs
    return { t with sound := t.sound && isTemplateEscape (c :: cs), taken := '\\' :: c :: t.taken }
  | '$' :: '{' :: cs => some ⟨true, true, ['$', '{'], cs⟩
  | c :: cs =>
    if c = '\x60' then some ⟨false, true, [c], cs⟩
    else do
      let t ← templateRest cs
      return { t with taken := c :: t.taken }

end BarrelAlias.Script
