import BarrelAlias.Script.Escape

/-!
From characters to tokens. A scanner looks at the start of a text and returns the token there, the
characters it takes, and the text after it. Some texts can be more than one token, and the grammar
asks for the reading it needs: a slash can open a pattern, a brace can go on with a template, and
angle brackets are read one at a time.
-/

namespace BarrelAlias.Script

/-- A token, the characters it takes, and what follows it. -/
structure Scan where
  token : Token
  taken : List Char
  rest : List Char

/-- The operators and brackets, each before those that begin it. A closing angle bracket is read
alone. -/
def symbols : List String :=
  ["...", "===", "!==", "**=", "<<=", "&&=", "||=", "??=",
   "=>", "==", "!=", "<=", "<<", "++", "--", "**", "&&", "||", "??", "?.", "+=", "-=", "*=", "/=",
   "%=", "&=", "|=", "^=",
   braceOpen, braceClose, "(", ")", "[", "]", ";", ",", "<", ">", "+", "-", "*", "/", "%", "&",
   "|", "^", "!", "~", "?", ":", "=", ".", "@"]

def symbolTable : List (List Char × String) := symbols.map fun s => (s.toList, s)

/-- The longest symbol; a question mark and a point before a digit are two. -/
def scanSymbol (cs : List Char) : Option Scan :=
  match cs with
  | '?' :: '.' :: d :: rest =>
    if d.isDigit then some ⟨.symbol "?", ['?'], '.' :: d :: rest⟩
    else some ⟨.symbol "?.", ['?', '.'], d :: rest⟩
  | cs =>
    symbolTable.findSome? fun (s, text) =>
      (s.isPrefixOf? cs).map fun rest => ⟨.symbol text, s, rest⟩

def wordEscape : List Char → Option (Nat × List Char × List Char)
  | '{' :: cs => do
    let ds := cs.takeWhile Text.isHexDigit
    let n ← Text.hexNumber? ds
    match cs.dropWhile Text.isHexDigit with
    | '}' :: rest =>
      if ds.isEmpty || n > 0x10FFFF then none else some (n, '{' :: ds ++ ['}'], rest)
    | _ => none
  | a :: b :: c :: d :: rest => do
    return (← Text.hexNumber? [a, b, c, d], [a, b, c, d], rest)
  | _ => none

/-- A word from its next character on: the word, the characters it takes, and what follows it. -/
def wordRest : Nat → Bool → List Char → Option (List Char × List Char × List Char)
  | 0, _, _ => none
  | fuel + 1, isFirst, cs =>
    match cs with
    | '\\' :: 'u' :: cs => do
      let (n, taken, rest) ← wordEscape cs
      let c := Char.ofNat n
      if if isFirst then Text.isIdentifierStart c else Text.isIdentifierPart c then
        let (name, more, rest) ← wordRest fuel false rest
        return (c :: name, '\\' :: 'u' :: taken ++ more, rest)
      else none
    | '\\' :: _ => none
    | c :: cs =>
      if if isFirst then Text.isIdentifierStart c else Text.isIdentifierPart c then do
        let (name, more, rest) ← wordRest fuel false cs
        return (c :: name, c :: more, rest)
      else if isFirst then none
      else some ([], [], c :: cs)
    | [] => if isFirst then none else some ([], [], [])

/-- A word; only one with escapes has to be read character by character. -/
def scanWord (cs : List Char) : Option (String × Bool × List Char × List Char) :=
  let plain := cs.takeWhile Text.isIdentifierPart
  let rest := cs.dropWhile Text.isIdentifierPart
  if rest.head? = some '\\' then do
    let (name, taken, rest) ← wordRest (cs.length + 1) true cs
    return (String.ofList name, true, taken, rest)
  else
    match plain with
    | c :: _ =>
      if Text.isIdentifierStart c then some (String.ofList plain, false, plain, rest) else none
    | [] => none

/-- Digits with single underscores between them. -/
def isDigitRun (run : List Char) : Bool :=
  !run.isEmpty && run.head? ≠ some '_' && run.getLast? ≠ some '_'
    && !(run.zip (run.drop 1)).any (fun (a, b) => a = '_' && b = '_')

def digitRun (isDigit : Char → Bool) (cs : List Char) : Option (List Char × List Char) :=
  let run := cs.takeWhile fun c => isDigit c || c = '_'
  if isDigitRun run then some (run, cs.drop run.length) else none

def scanExponent (cs : List Char) : Option (List Char × List Char) :=
  match cs with
  | e :: s :: rest =>
    if e = 'e' || e = 'E' then
      if s = '+' || s = '-' then
        (digitRun Char.isDigit rest).map fun (ds, rest) => (e :: s :: ds, rest)
      else (digitRun Char.isDigit (s :: rest)).map fun (ds, rest) => (e :: ds, rest)
    else some ([], cs)
  | [e] => if e = 'e' || e = 'E' then none else some ([], cs)
  | [] => some ([], [])

/-- The digits after a point, of which there may be none, and an exponent. -/
def scanFraction (cs : List Char) : Option (List Char × List Char) := do
  let (ds, rest) ←
    match cs with
    | '_' :: _ => none
    | c :: _ => if c.isDigit then digitRun Char.isDigit cs else some ([], cs)
    | [] => some ([], [])
  let (e, rest) ← scanExponent rest
  return (ds ++ e, rest)

/-- The end of a number without a point: an exponent, or the mark of a large integer. -/
def scanDecimalEnd (cs : List Char) : Option (List Char × List Char) :=
  match cs with
  | '.' :: cs => (scanFraction cs).map fun (f, rest) => ('.' :: f, rest)
  | 'n' :: cs => some (['n'], cs)
  | cs => scanExponent cs

/-- Digits of a base with its own mark, perhaps with the mark of a large integer. -/
def scanBased (isDigit : Char → Bool) (cs : List Char) : Option (List Char × List Char) := do
  let (ds, rest) ← digitRun isDigit cs
  match rest with
  | 'n' :: rest => return (ds ++ ['n'], rest)
  | rest => return (ds, rest)

def scanDigits (cs : List Char) : Option (List Char × List Char) :=
  let based (mark : Char) (isDigit : Char → Bool) (cs : List Char) :=
    (scanBased isDigit cs).map fun (ds, rest) => ('0' :: mark :: ds, rest)
  match cs with
  | '0' :: c :: rest =>
    if c = 'x' || c = 'X' then based c Text.isHexDigit rest
    else if c = 'o' || c = 'O' then based c (fun d => (octalDigit? d).isSome) rest
    else if c = 'b' || c = 'B' then based c (fun d => d = '0' || d = '1') rest
    else if c = '_' then none
    else if c.isDigit then
      let ds := '0' :: (c :: rest).takeWhile Char.isDigit
      let rest := (c :: rest).dropWhile Char.isDigit
      if ds.all fun d => (octalDigit? d).isSome then some (ds, rest)
      else
        match rest with
        | '.' :: rest => (scanFraction rest).map fun (f, rest) => (ds ++ '.' :: f, rest)
        | rest => (scanExponent rest).map fun (e, rest) => (ds ++ e, rest)
    else (scanDecimalEnd (c :: rest)).map fun (e, rest) => ('0' :: e, rest)
  | '.' :: cs => (scanFraction cs).map fun (f, rest) => ('.' :: f, rest)
  | cs => do
    let (ds, rest) ← digitRun Char.isDigit cs
    let (e, rest) ← scanDecimalEnd rest
    return (ds ++ e, rest)

/-- A number; neither a name nor a digit may follow it at once. -/
def scanNumber (cs : List Char) : Option Scan := do
  let (taken, rest) ← scanDigits cs
  match rest with
  | c :: _ => if Text.isIdentifierPart c || c = '\\' then none else some ⟨.number, taken, rest⟩
  | [] => some ⟨.number, taken, rest⟩

/-- The token at the start of a text that does not begin with a gap. -/
def scanToken (cs : List Char) : Option Scan :=
  match cs with
  | [] => some ⟨.ending, [], []⟩
  | '#' :: cs => do
    let (name, _, taken, rest) ← scanWord cs
    return ⟨.privateName name, '#' :: taken, rest⟩
  | '.' :: d :: rest => if d.isDigit then scanNumber cs else scanSymbol ('.' :: d :: rest)
  | c :: rest =>
    if c = '"' || c = '\x27' then do
      let q ← quotedRest c none rest
      return ⟨.quoted (unitsText q.units) (unitsAreWhole q.units), c :: q.taken, q.rest⟩
    else if c = '\x60' then do
      let t ← templateRest rest
      return ⟨.template t.opens t.sound, c :: t.taken, t.rest⟩
    else if c.isDigit then scanNumber cs
    else if Text.isIdentifierStart c || c = '\\' then do
      let (name, escaped, taken, rest) ← scanWord cs
      return ⟨.word name escaped, taken, rest⟩
    else scanSymbol cs

/-- The next token of a text whose first character stands at byte `start`. -/
def nextLexeme (marks : Bool) (start : Nat) (newline : Bool) (cs : List Char) : Option Lexeme := do
  let gap ← skipGap marks .blank newline 0 cs
  let s ← scanToken gap.rest
  let first := start + gap.bytes
  return { token := s.token, span := ⟨first, first + Text.byteLength s.taken⟩
           newline := gap.newline, source := gap.rest, rest := s.rest }

/-- The body of a pattern up to the slash that ends it; within brackets a slash does not. -/
def regexBody : Bool → List Char → Option (List Char × List Char)
  | _, [] => none
  | inClass, '\\' :: c :: cs =>
    if isLineBreak c then none
    else (regexBody inClass cs).map fun (taken, rest) => ('\\' :: c :: taken, rest)
  | inClass, c :: cs =>
    if isLineBreak c then none
    else if c = '/' && !inClass then some (['/'], cs)
    else
      let inClass := if c = '[' then true else if c = ']' then false else inClass
      (regexBody inClass cs).map fun (taken, rest) => (c :: taken, rest)

def regexFlags : List Char := ['d', 'g', 'i', 'm', 's', 'u', 'v', 'y']

/-- Whether the flags of a pattern are known, differ, and do not ask for two modes at once. -/
def areRegexFlags (fs : List Char) : Bool :=
  fs.all (· ∈ regexFlags) && fs.eraseDups.length = fs.length && !('u' ∈ fs && 'v' ∈ fs)

def scanRegex (cs : List Char) : Option Scan :=
  match cs with
  | '/' :: cs => do
    let (body, rest) ← regexBody false cs
    let flags := rest.takeWhile Text.isIdentifierPart
    if areRegexFlags flags then
      return ⟨.regex, '/' :: body ++ flags, rest.drop flags.length⟩
    else none
  | _ => none

/-- The piece of a template after the brace that closes an expression. -/
def scanTemplateMore (cs : List Char) : Option Scan :=
  match cs with
  | '}' :: cs => do
    let t ← templateRest cs
    return ⟨.template t.opens t.sound, '}' :: t.taken, t.rest⟩
  | _ => none

def closingSymbols : List String := [">>>=", ">>>", ">>=", ">>", ">=", ">"]

def scanClosing (cs : List Char) : Option Scan :=
  closingSymbols.findSome? fun s =>
    (s.toList.isPrefixOf? cs).map fun rest => ⟨.symbol s, s.toList, rest⟩

def scanOpening (cs : List Char) : Option Scan :=
  match cs with
  | '<' :: rest => some ⟨.symbol "<", ['<'], rest⟩
  | _ => none

end BarrelAlias.Script
