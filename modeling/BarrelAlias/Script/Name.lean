import BarrelAlias.Script.Grammar

/-!
Names: which words are free, and where any word will do.
-/

namespace BarrelAlias.Script

/-- Words that are never names of their own. -/
def reservedWords : List String :=
  ["break", "case", "catch", "class", "const", "continue", "debugger", "default", "delete", "do",
   "else", "enum", "export", "extends", "false", "finally", "for", "function", "if", "import", "in",
   "instanceof", "new", "null", "return", "super", "switch", "this", "throw", "true", "try",
   "typeof", "var", "void", "while", "with"]

def isFree (ctx : Context) (w : String) : Bool :=
  w ∉ reservedWords && !(ctx.inAsync && w = "await") && !(ctx.inGenerator && w = "yield")

def isFreeToken (ctx : Context) : Token → Bool
  | .word w _ => isFree ctx w
  | _ => false

def isWordToken : Token → Bool
  | .word _ _ => true
  | _ => false

def atName : Parser Bool := do return isFreeToken (← read) (← peek).token

def atAnyWord : Parser Bool := do return isWordToken (← peek).token

def name : Parser String := do
  match (← advance).token with
  | .word w _ => require (isFree (← read) w); return w
  | _ => refuse

def anyWord : Parser String := do
  match (← advance).token with
  | .word w _ => return w
  | _ => refuse

/-- Whether the token after the one ahead is a free name on the same line. -/
def nameFollows : Parser Bool := do
  let ctx ← read
  secondIs fun l => !l.newline && isFreeToken ctx l.token

def specifier : Parser Specifier := do
  let l ← advance
  match l.token with
  | .quoted v _ => return ⟨v, l.span⟩
  | _ => refuse

def quotedText : Parser String := do return (← specifier).value

def dottedName : Nat → Parser Unit
  | 0 => refuse
  | fuel + 1 => do
    let _ ← anyWord
    if ← eatSymbol "." then dottedName fuel

def isKeyToken : Token → Bool
  | .word _ _ => true
  | .quoted _ _ => true
  | .number => true
  | .privateName _ => true
  | .symbol s => s = "["
  | _ => false

inductive Key
  /-- A word, which can also stand for a variable of that name. -/
  | word (text : String) (escaped : Bool)
  | privateName (text : String)
  | quoted (text : String)
  | number
  | computed

def key (g : Grammar) : Parser Key := do
  match (← advance).token with
  | .word w e => return .word w e
  | .quoted s _ => return .quoted s
  | .number => return .number
  | .privateName n => return .privateName n
  | .symbol "[" => do
    let _ ← g.operandIn
    expectSymbol "]"
    return .computed
  | _ => refuse

end BarrelAlias.Script
