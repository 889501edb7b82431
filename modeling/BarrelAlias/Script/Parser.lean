import BarrelAlias.Script.Dialect
import BarrelAlias.Script.Split

/-!
Parsers: functions of the place they stand in and of the text ahead, which either refuse the text or
return what they read and the place after it. The place after it is further on in the same text; that
is a part of their type.
-/

namespace BarrelAlias.Script

/-- What is allowed where a parser stands. -/
structure Context where
  types : Bool
  elements : Bool
  /-- The old comment marks of plain scripts are read as such. -/
  marks : Bool
  allowIn : Bool
  inGenerator : Bool
  inAsync : Bool
  inFunction : Bool
  ambient : Bool
  /-- A bracket belongs to the member after a decorator. -/
  inDecorator : Bool
  /-- `extends` opens no conditional type. -/
  noConditional : Bool

def Context.ofDialect (d : Dialect) : Context where
  types := d.types
  elements := d.elements
  marks := !d.isModule
  allowIn := true
  inGenerator := false
  inAsync := d.isModule
  inFunction := false
  ambient := d.ambient
  inDecorator := false
  noConditional := false

/-- The place in a text: the token ahead, unless there is none, the end of the token before it, and
the text after that, in which the token ahead stands. -/
structure Cursor where
  ahead : Option Lexeme
  stop : Nat
  rest : List Char
  standsIn : ∀ l, ahead = some l → l.StandsIn stop rest

def Cursor.at (marks : Bool) (stop : Nat) (newline : Bool) (rest : List Char) : Cursor :=
  ⟨nextLexeme marks stop newline rest, stop, rest, fun _ => nextLexeme_standsIn⟩

namespace Cursor

def Before (c d : Cursor) : Prop := Text.GoesOn c.stop c.rest d.stop d.rest

theorem Before.refl (c : Cursor) : c.Before c := Text.GoesOn.refl c.stop c.rest

theorem Before.trans {c d e : Cursor} (h : c.Before d) (h' : d.Before e) : c.Before e :=
  Text.GoesOn.trans h h'

def Onward (c : Cursor) : Type := {d : Cursor // c.Before d}

def here (c : Cursor) : c.Onward := ⟨c, .refl c⟩

/-- The cursor at a place further on, from where line breaks are looked for anew. -/
def moveTo (c : Cursor) (marks : Bool) (stop : Nat) (rest : List Char)
    (h : Text.GoesOn c.stop c.rest stop rest) : c.Onward := ⟨.at marks stop false rest, h⟩

end Cursor

def Parser (α : Type) : Type := Context → (cur : Cursor) → Option (α × cur.Onward)

instance : Monad Parser where
  pure a := fun _ cur => some (a, cur.here)
  bind p f := fun ctx cur =>
    match p ctx cur with
    | some (a, next) =>
      match f a ctx next.val with
      | some (b, last) => some (b, ⟨last.val, next.property.trans last.property⟩)
      | none => none
    | none => none

instance : MonadReaderOf Context Parser where
  read := fun ctx cur => some (ctx, cur.here)

def refuse {α : Type} : Parser α := fun _ _ => none

def require (b : Bool) : Parser Unit := if b then pure () else refuse

def peek : Parser Lexeme := fun _ cur => cur.ahead.map (·, cur.here)

def advance : Parser Lexeme := fun ctx cur =>
  match h : cur.ahead with
  | some l =>
    have goesOn := (cur.standsIn l h).source.trans (cur.standsIn l h).rest
    some (l, cur.moveTo ctx.marks l.span.stop l.rest goesOn)
  | none => none

/-- Reads the token ahead in another way. -/
def reread (scan : List Char → Option Scan) [Faithful scan] : Parser Unit := fun _ cur =>
  match h : cur.ahead with
  | none => none
  | some l =>
    match hs : scan l.source with
    | none => none
    | some s =>
      let stop := l.span.start + Text.byteLength s.taken
      let l' : Lexeme := { l with token := s.token, span := ⟨l.span.start, stop⟩, rest := s.rest }
      have standsIn : l'.StandsIn cur.stop cur.rest :=
        .of_scan (cur.standsIn l h).source hs rfl rfl rfl
      some ((), ⟨⟨some l', cur.stop, cur.rest, fun _ hl => Option.some.inj hl ▸ standsIn⟩, .refl cur⟩)

/-- Tries a parser; if it refuses the text, nothing is taken. -/
def attempt {α : Type} (p : Parser α) : Parser (Option α) := fun ctx cur =>
  match p ctx cur with
  | some (a, next) => some (some a, next)
  | none => some (none, cur.here)

/-- What a parser would read; nothing is taken. -/
def lookahead {α : Type} (p : Parser α) : Parser (Option α) := fun ctx cur =>
  some ((p ctx cur).map (·.1), cur.here)

def within {α : Type} (change : Context → Context) (p : Parser α) : Parser α :=
  fun ctx => p (change ctx)

def lastStop : Parser Nat := fun _ cur => some (cur.stop, cur.here)

def nextStart : Parser Nat := do return (← peek).span.start

def onNewLine : Parser Bool := do return (← peek).newline

def atToken (t : Token) : Parser Bool := do return (← peek).token = t

def atSymbol (s : String) : Parser Bool := atToken (.symbol s)

/-- Whether the token ahead is this word, spelled without escapes. -/
def atWord (w : String) : Parser Bool := atToken (.word w false)

def eatToken (t : Token) : Parser Bool := do
  if ← atToken t then
    let _ ← advance
    return true
  else return false

def eatSymbol (s : String) : Parser Bool := eatToken (.symbol s)

def eatWord (w : String) : Parser Bool := eatToken (.word w false)

def expectToken (t : Token) : Parser Unit := do require (← eatToken t)

def expectSymbol (s : String) : Parser Unit := expectToken (.symbol s)

def expectWord (w : String) : Parser Unit := expectToken (.word w false)

def atAnySymbol (ss : List String) : Parser Bool := do
  match (← peek).token with
  | .symbol s => return s ∈ ss
  | _ => return false

/-- Whether the condition holds of the token after the one ahead. -/
def secondIs (p : Lexeme → Bool) : Parser Bool := do
  let r ← lookahead do
    let _ ← advance
    peek
  return (r.map p).getD false

def atQuoted : Parser Bool := do
  match (← peek).token with
  | .quoted _ _ => return true
  | _ => return false

/-- The end of a statement: a semicolon, or a place where one may be left out. -/
def endStatement : Parser Unit := do
  if ← eatSymbol ";" then return ()
  let l ← peek
  require (l.newline || l.token = .symbol braceClose || l.token = .ending)

/-- Runs a parser as long as it finds something, at most `fuel` times. -/
def many {α : Type} (p : Parser (Option α)) : Nat → Parser (List α)
  | 0 => refuse
  | fuel + 1 => do
    match ← p with
    | none => return []
    | some a => return a :: (← many p fuel)

/-- Items with commas between them up to a closing symbol; a comma may stand before it. -/
def commaList {α : Type} (close : String) (item : Parser α) : Nat → Parser (List α)
  | 0 => refuse
  | fuel + 1 => do
    if ← eatSymbol close then return []
    let a ← item
    if ← eatSymbol "," then return a :: (← commaList close item fuel)
    expectSymbol close
    return [a]

def separated {α : Type} (symbol : String) (item : Parser α) : Nat → Parser (List α)
  | 0 => refuse
  | fuel + 1 => do
    let a ← item
    if ← eatSymbol symbol then return a :: (← separated symbol item fuel)
    return [a]

end BarrelAlias.Script
