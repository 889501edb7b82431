import BarrelAlias.Script.Expression
import BarrelAlias.Script.Module

/-!
Statements.
-/

namespace BarrelAlias.Script

def condition (g : Grammar) : Parser Unit := do
  expectSymbol "("
  let _ ← g.expressionIn
  expectSymbol ")"

def body (g : Grammar) : Parser Unit := do
  let _ ← g.statement true

def loopParts (g : Grammar) : Parser Unit := do
  expectSymbol ";"
  unless ← atSymbol ";" do
    let _ ← g.expressionIn
  expectSymbol ";"
  unless ← atSymbol ")" do
    let _ ← g.expressionIn

/-- The rest of a loop over something, after `of` or `in`; whether there is one. -/
def loopSource (g : Grammar) (isAwait : Bool) : Parser Bool := do
  if ← eatWord "of" then
    let _ ← g.operandIn
    return true
  if !isAwait && (← atWord "in") then
    let _ ← advance
    let _ ← g.expressionIn
    return true
  return false

def loopExpression (g : Grammar) (isAwait : Bool) : Parser Unit := do
  let s ← within (fun c => { c with allowIn := false }) (g.assignment true)
  if (← atWord "of") || (← atWord "in") then
    require (s.isTarget && (isAwait || s ≠ .name "async" || (← atWord "in")))
    require (← loopSource g isAwait)
  else
    settled s
    require !isAwait
    if ← eatSymbol "," then
      let _ ← within (fun c => { c with allowIn := false }) g.expression
    loopParts g

def loopHead (g : Grammar) (isAwait : Bool) : Parser Unit := do
  if ← atSymbol ";" then
    require !isAwait
    loopParts g
  else
    match ← variableWords with
    | some isConstant =>
      let d ← within (fun c => { c with allowIn := false }) (declarators g isConstant)
      unless ← loopSource g isAwait do
        require (!isAwait && d.complete)
        loopParts g
    | none => loopExpression g isAwait

def forRule (g : Grammar) : Parser Unit := do
  let isAwait ← eatWord "await"
  require (!isAwait || (← read).inAsync)
  expectSymbol "("
  loopHead g isAwait
  expectSymbol ")"
  body g

/-- A clause of a choice among cases: its statements end where the next clause begins. -/
def caseClause (g : Grammar) : Parser (Option Unit) := do
  if ← eatSymbol braceClose then return none
  if ← eatWord "case" then
    let _ ← g.expressionIn
  else expectWord "default"
  expectSymbol ":"
  let _ ← many (do
    if (← atWord "case") || (← atWord "default") || (← atSymbol braceClose) then return none
    let _ ← g.statement false
    return some ()) g.rounds
  return some ()

def switchRule (g : Grammar) : Parser Unit := do
  condition g
  expectSymbol braceOpen
  let _ ← many (caseClause g) g.rounds

def tryRule (g : Grammar) : Parser Unit := do
  block g
  let caught ← eatWord "catch"
  if caught then
    if ← eatSymbol "(" then
      let _ ← g.binding
      annotation g
      expectSymbol ")"
    block g
  if ← eatWord "finally" then block g else require caught

/-- A jump, perhaps to a label on the same line. -/
def jump : Parser Unit := do
  if (← atName) && !(← onNewLine) then
    let _ ← advance
  endStatement

def returnRule (g : Grammar) : Parser Unit := do
  require (← read).inFunction
  let l ← peek
  unless l.newline || l.token ∈ [.symbol ";", .symbol braceClose, .ending] do
    let _ ← g.expressionIn
  endStatement

/-- A statement that a word of control opens, after that word; none if the word is no such word. -/
def controlRule (g : Grammar) (w : String) : Option (Parser Unit) :=
  match w with
  | "if" => some do
    condition g
    body g
    if ← eatWord "else" then body g
  | "for" => some (forRule g)
  | "while" => some do
    condition g
    body g
  | "do" => some do
    body g
    expectWord "while"
    condition g
    let _ ← eatSymbol ";"
  | "continue" => some jump
  | "break" => some jump
  | "return" => some (returnRule g)
  | "with" => some do
    condition g
    body g
  | "switch" => some (switchRule g)
  | "throw" => some do
    require !(← onNewLine)
    let _ ← g.expressionIn
    endStatement
  | "try" => some (tryRule g)
  | "debugger" => some endStatement
  | _ => none

/-- Whether an import is ahead that is no expression. -/
def atImport : Parser Bool := do
  if ← atWord "import" then secondIs fun l => l.token ∉ [.symbol "(", .symbol "."]
  else return false

def atStatementLabel : Parser Bool := do
  if ← atName then secondIs fun l => l.token = .symbol ":" else return false

def expressionRule (g : Grammar) : Parser Item := do
  if ← atStatementLabel then
    let _ ← advance
    let _ ← advance
    let _ ← g.statement true
  else
    let _ ← g.expressionIn
    endStatement
  return .plain

/-- Whether a function that is the body of another statement would be a plain one. -/
def atPlainFunction : Parser Bool := do
  if ← atWord "function" then secondIs fun l => l.token ≠ .symbol "*" else return false

def mayBeBody : Parser Bool := do
  if ← atWord "var" then return true
  if ← atPlainFunction then return true
  return !(← atPlainDeclaration) && !((← read).types && (← atTypedDeclaration))

def declarationRule (g : Grammar) (isSingle : Bool) : Parser Item := do
  if isSingle then require (← mayBeBody)
  match ← declaration g with
  | some ds => return .declared ds
  | none =>
    match ← variableWords with
    | some isConstant => return .declared (← variableList g isConstant)
    | none => expressionRule g

/-- Whether the word `let` ahead is a name: an operator, a member or a call follows it, or it stands
alone. -/
def letIsName (isSingle : Bool) : Parser Bool :=
  secondIs fun l =>
    match l.token with
    | .symbol s =>
      s ∈ [".", "(", ";", "="] || s ∈ compoundAssignments || s ∈ binarySymbols
        || (isSingle && s ≠ "[")
    | .word w _ => w = "in" || w = "instanceof" || isSingle
    | _ => isSingle

def letRule (g : Grammar) (isSingle : Bool) : Parser Item := do
  if ← letIsName isSingle then expressionRule g
  else
    require !isSingle
    let _ ← advance
    return .declared (← variableList g false)

/-- Whether a class is ahead, perhaps after the words that modify it. -/
def atClass : Parser Bool := do
  let types := (← read).types
  let r ← lookahead do
    if types then
      let _ ← eatWord "declare"
      let _ ← eatWord "abstract"
    expectWord "class"
  return r.isSome

/-- Whether an export of a class is ahead, or one with decorators of its own. -/
def atClassExport : Parser Bool := do
  let r ← lookahead do
    expectWord "export"
    let _ ← eatWord "default"
    require ((← atSymbol "@") || (← atClass))
  return r.isSome

/-- A statement that begins with decorators, which only a class has. -/
def decoratedRule (g : Grammar) : Parser Item := do
  let _ ← decorators g
  if ← atClassExport then exportRule g
  else
    require (← atClass)
    match ← declaration g with
    | some ds => return .declared ds
    | none => refuse

def statementRule (g : Grammar) (isSingle : Bool) : Parser Item := do
  match (← peek).token with
  | .symbol ";" => let _ ← advance; return .plain
  | .symbol "@" => decoratedRule g
  | .symbol s =>
    if s = braceOpen then
      block g
      return .plain
    else expressionRule g
  | .word w false =>
    match controlRule g w with
    | some rule =>
      let _ ← advance
      rule
      return .plain
    | none =>
      if w = "export" then exportRule g
      else if w = "let" then letRule g isSingle
      else if ← atImport then importRule g
      else declarationRule g isSingle
  | _ => expressionRule g

end BarrelAlias.Script
