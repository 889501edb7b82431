import BarrelAlias.Script.Class
import BarrelAlias.Script.Element
import BarrelAlias.Script.Literal

/-!
Expressions.
-/

namespace BarrelAlias.Script

def templateRestRule (g : Grammar) (isTagged : Bool) : Nat → Parser Unit
  | 0 => refuse
  | fuel + 1 => do
    let _ ← g.expressionIn
    require (← atSymbol braceClose)
    reread scanTemplateMore
    match (← advance).token with
    | .template opens sound =>
      require (isTagged || sound)
      if opens then templateRestRule g isTagged fuel
    | _ => refuse

/-- A template; only one with a tag may hold unsound escapes. -/
def templateRule (g : Grammar) (isTagged : Bool) : Parser Unit := do
  match (← advance).token with
  | .template opens sound =>
    require (isTagged || sound)
    if opens then templateRestRule g isTagged g.rounds
  | _ => refuse

def callArguments (g : Grammar) : Parser Unit := do
  let _ ← commaList ")" (do
    let _ ← eatSymbol "..."
    let _ ← g.operandIn) g.rounds

def parenthesized (g : Grammar) : Parser Shape := do
  let s ← g.expressionIn
  expectSymbol ")"
  return .grouped s.isPlace

def importArguments (g : Grammar) : Parser Unit := do
  let _ ← g.operandIn
  if ← eatSymbol "," then
    unless ← atSymbol ")" do
      let _ ← g.operandIn
      let _ ← eatSymbol ","
  expectSymbol ")"

def importExpression (g : Grammar) : Parser Shape := do
  if ← eatSymbol "." then
    match ← anyWord with
    | "meta" => return .value
    | "source" => expectSymbol "("; importArguments g; return .value
    | "defer" => expectSymbol "("; importArguments g; return .value
    | _ => refuse
  expectSymbol "("
  importArguments g
  return .value

def regexRule : Parser Shape := do
  reread scanRegex
  let _ ← advance
  return .value

def wordOperand (g : Grammar) (w : String) (escaped : Bool) : Parser Shape := do
  if escaped then return .name (← name)
  if w ∈ ["this", "null", "true", "false"] then
    let _ ← advance
    return .value
  if w = "function" then
    let _ ← functionRule g false true
    return .value
  if ← atAsyncFunction then
    let _ ← advance
    let _ ← functionRule g true true
    return .value
  if w = "class" then
    let _ ← classRule g
    return .value
  if w = "super" then
    let _ ← advance
    require (← atAnySymbol ["(", ".", "["])
    return .value
  if w = "import" then
    let _ ← advance
    importExpression g
  else return .name (← name)

/-- An operand without members, calls and operators. -/
def primary (g : Grammar) : Parser Shape := do
  match (← peek).token with
  | .word w escaped => wordOperand g w escaped
  | .number => let _ ← advance; return .value
  | .quoted _ _ => let _ ← advance; return .value
  | .template _ _ => templateRule g false; return .value
  | .privateName _ =>
    let _ ← advance
    require (← atWord "in")
    return .value
  | .symbol "(" => let _ ← advance; parenthesized g
  | .symbol "[" => let _ ← advance; listLiteral g
  | .symbol "/" => regexRule
  | .symbol "/=" => regexRule
  | .symbol "<" =>
    require (← read).elements
    g.element
    return .value
  | .symbol "@" =>
    let _ ← decorators g
    let _ ← classRule g
    return .value
  | .symbol s =>
    require (s = braceOpen)
    let _ ← advance
    objectLiteral g
  | _ => refuse

/-- Operators between two operands, with those that words spell apart. -/
def binarySymbols : List String :=
  ["??", "||", "&&", "|", "^", "&", "==", "!=", "===", "!==", "<", ">", "<=", ">=", "<<", ">>",
   ">>>", "+", "-", "*", "/", "%", "**"]

def isBinary : Token → Bool
  | .symbol s => s ∈ binarySymbols
  | .word w _ => w ∈ ["in", "instanceof", "as", "satisfies"]
  | _ => false

def startsExpression : Token → Bool
  | .word w _ =>
    w ∉ reservedWords || w ∈ ["this", "super", "null", "true", "false", "function", "class", "new",
      "delete", "typeof", "void", "import"]
  | .number => true
  | .quoted _ _ => true
  | .template _ _ => true
  | .privateName _ => true
  | .symbol s => s ∈ [braceOpen, "(", "[", "/", "/=", "+", "-", "~", "!", "++", "--", "<", "@"]
  | _ => false

def endsTypeArguments (l : Lexeme) : Bool :=
  match l.token with
  | .symbol "(" => true
  | .template _ _ => true
  | .symbol s =>
    if s ∈ ["<", ">", "+", "-"] then false
    else l.newline || isBinary l.token || !startsExpression l.token
  | t => l.newline || isBinary t || !startsExpression t

/-- Types with commas between them up to the bracket that closes them; there is at least one. -/
def operandTypes (g : Grammar) : Nat → Parser Unit
  | 0 => refuse
  | fuel + 1 => do
    g.type
    if ← eatSymbol "," then
      unless ← atSymbol ">" do operandTypes g fuel
    else require (← atSymbol ">")

/-- Types in angle brackets after an operand, where nothing else can be meant. -/
def operandTypeArguments (g : Grammar) : Parser Unit := do
  require (← eatAngle)
  within (fun c => { c with noConditional := false }) (operandTypes g g.rounds)
  reread scanClosing
  expectSymbol ">"
  require (endsTypeArguments (← peek))

def memberName : Parser Unit := do
  match (← advance).token with
  | .word _ _ => return ()
  | .privateName _ => return ()
  | _ => refuse

/-- What follows `?.`: a call, a member, or an index. -/
def optionalSuffix (g : Grammar) : Parser Unit := do
  if ← eatSymbol "(" then callArguments g
  else if ← eatSymbol "[" then
    let _ ← g.expressionIn
    expectSymbol "]"
  else if (← read).types && (← atAnySymbol ["<", "<<"]) then
    typeArguments g
    expectSymbol "("
    callArguments g
  else memberName

/-- Members, calls and indices after an operand; `calls` if calls are among them. A chain with `?.`
names no place to assign to. -/
def suffixes (g : Grammar) (calls : Bool) : Nat → Bool → Shape → Parser Shape
  | 0, _, _ => refuse
  | fuel + 1, inChain, s => do
    let place : Shape := if inChain then .value else .member
    match (← peek).token with
    | .symbol "." =>
      settled s
      let _ ← advance
      memberName
      suffixes g calls fuel inChain place
    | .symbol "?." =>
      settled s
      require calls
      let _ ← advance
      optionalSuffix g
      suffixes g calls fuel true .value
    | .symbol "[" =>
      if (← read).inDecorator then return s
      settled s
      let _ ← advance
      let _ ← g.expressionIn
      expectSymbol "]"
      suffixes g calls fuel inChain place
    | .symbol "(" =>
      if calls then
        settled s
        let _ ← advance
        callArguments g
        suffixes g calls fuel inChain .value
      else return s
    | .template _ _ =>
      settled s
      require !inChain
      templateRule g true
      suffixes g calls fuel inChain .value
    | .symbol "!" =>
      if (← read).types && !(← onNewLine) then
        settled s
        let _ ← advance
        suffixes g calls fuel inChain (.grouped s.isPlace)
      else return s
    | .symbol t =>
      if (← read).types && t ∈ ["<", "<<"] then
        match ← attempt (operandTypeArguments g) with
        | some _ => suffixes g calls fuel inChain .value
        | none => return s
      else return s
    | _ => return s

def newRule (g : Grammar) : Nat → Parser Shape
  | 0 => refuse
  | fuel + 1 => do
    expectWord "new"
    if ← eatSymbol "." then
      expectWord "target"
      return .value
    let callee ←
      if ← atWord "new" then newRule g fuel
      else
        require !((← atWord "import") && (← secondIs fun l => l.token = .symbol "("))
        primary g
    let _ ← suffixes g false g.rounds false callee
    if ← eatSymbol "(" then callArguments g
    return .value

def leftSideRule (g : Grammar) : Parser Shape := do
  let s ← if ← atWord "new" then newRule g g.rounds else primary g
  suffixes g true g.rounds false s

def prefixedOperand (g : Grammar) : Parser Shape := do
  let _ ← advance
  settled (← g.unary)
  return .prefixed

/-- An operand that is to be counted up or down. -/
def countedOperand (g : Grammar) : Parser Shape := do
  let _ ← advance
  require (← g.unary).isPlace
  return .value

def assertedOperand (g : Grammar) : Parser Shape := do
  require (← eatAngle)
  unless ← eatWord "const" do g.type
  expectSymbol ">"
  let s ← g.unary
  settled s
  return .grouped s.isPlace

def updatedOperand (g : Grammar) : Parser Shape := do
  let s ← g.leftSide
  if (← atAnySymbol ["++", "--"]) && !(← onNewLine) then
    require s.isPlace
    let _ ← advance
    return .value
  return s

def unaryRule (g : Grammar) : Parser Shape := do
  let ctx ← read
  match (← peek).token with
  | .symbol s =>
    if s ∈ ["!", "~", "+", "-"] then prefixedOperand g
    else if s ∈ ["++", "--"] then countedOperand g
    else if s ∈ ["<", "<<"] && ctx.types && !ctx.elements then assertedOperand g
    else updatedOperand g
  | .word w false =>
    if w ∈ ["typeof", "void", "delete"] || (ctx.inAsync && w = "await") then prefixedOperand g
    else updatedOperand g
  | _ => updatedOperand g

/-- Which of the operators that do not mix has been used. -/
inductive Logic
  | unused
  | coalescing
  | logical
deriving DecidableEq

/-- Takes note of an operator; `??` does not mix with `||` and `&&`. -/
def Logic.note (l : Logic) (op : String) : Option Logic :=
  if op = "??" then if l = .logical then none else some .coalescing
  else if op = "||" || op = "&&" then if l = .coalescing then none else some .logical
  else some l

/-- Operators and operands after a first operand: `whole` is the shape of all that was read, `last`
that of the last operand. -/
def binaryRest (g : Grammar) : Nat → Logic → Shape → Shape → Parser Shape
  | 0, _, _, _ => refuse
  | fuel + 1, logic, whole, last => do
    let ctx ← read
    if ← atSymbol ">" then reread scanClosing
    match (← peek).token with
    | .symbol op =>
      if op ∈ binarySymbols then
        settled whole
        require (op ≠ "**" || last ≠ .prefixed)
        match logic.note op with
        | none => refuse
        | some logic =>
          let _ ← advance
          let right ← g.unary
          settled right
          binaryRest g fuel logic .value right
      else return whole
    | .word w false =>
      if w = "instanceof" || (w = "in" && ctx.allowIn) then
        settled whole
        let _ ← advance
        let right ← g.unary
        settled right
        binaryRest g fuel logic .value right
      else if (w = "as" || w = "satisfies") && ctx.types && !(← onNewLine) then
        settled whole
        let _ ← advance
        let isConst ← if w = "as" then eatWord "const" else pure false
        unless isConst do g.type
        binaryRest g fuel logic (.grouped whole.isPlace) .value
      else return whole
    | _ => return whole

def binary (g : Grammar) : Parser Shape := do
  let s ← g.unary
  binaryRest g g.rounds .unused s s

def conditionalBranches (g : Grammar) (returnTypes : Bool) : Parser Unit := do
  let _ ← within (fun c => { c with allowIn := true, inDecorator := false }) (g.operand false)
  expectSymbol ":"
  let _ ← g.operand returnTypes

def endsYield (l : Lexeme) : Bool :=
  l.newline || l.token = .ending || l.token ∈ [.word "in" false, .word "of" false]
    || l.token ∈ [")", "]", braceClose, ",", ";", ":"].map Token.symbol

def yieldRule (g : Grammar) : Parser Shape := do
  expectWord "yield"
  unless endsYield (← peek) do
    let _ ← eatStar
    let _ ← g.operand true
  return .value

/-- Whether a list of type parameters is ahead, and no element. -/
def atGenericArrow : Parser Bool := do
  let r ← lookahead do
    require (← eatAngle)
    let _ ← eatWord "const"
    let _ ← name
    if ← eatWord "extends" then
      require !(← atAnySymbol ["=", ">", "/"])
    else require (← atAnySymbol [",", "="])
  return r.isSome

def bareArrow (g : Grammar) (isAsync returnTypes : Bool) : Parser Unit := do
  let _ ← within (fun c => { c with inAsync := c.inAsync || isAsync }) name
  arrow
  arrowBody g isAsync returnTypes

def arrowRule (g : Grammar) (returnTypes : Bool) : Parser (Option Unit) := do
  let ctx ← read
  match (← peek).token with
  | .symbol "(" => attempt (arrowFunction g false returnTypes)
  | .symbol s =>
    if s ∈ ["<", "<<"] && ctx.types then
      if ctx.elements then
        if ← atGenericArrow then attempt (arrowFunction g false returnTypes) else return none
      else attempt (arrowFunction g false returnTypes)
    else return none
  | .word w escaped =>
    if ← secondIs fun l => !l.newline && l.token = .symbol "=>" then
      attempt (bareArrow g false returnTypes)
    else if w = "async" && !escaped then
      attempt do
        let _ ← advance
        require !(← onNewLine)
        if ← atAnyWord then bareArrow g true returnTypes
        else arrowFunction g true returnTypes
    else return none
  | _ => return none

def compoundAssignments : List String :=
  ["+=", "-=", "*=", "/=", "%=", "**=", "<<=", ">>=", ">>>=", "&=", "|=", "^=", "&&=", "||=", "??="]

/-- An expression without commas that is no function with an arrow. -/
def assignmentRest (g : Grammar) (returnTypes : Bool) : Parser Shape := do
  let left ← binary g
  match (← peek).token with
  | .symbol "=" =>
    require left.isTarget
    let _ ← advance
    let _ ← g.operand returnTypes
    return .assignment
  | .symbol "?" =>
    settled left
    let _ ← advance
    conditionalBranches g returnTypes
    return .value
  | .symbol s =>
    if s ∈ compoundAssignments then
      require left.isPlace
      let _ ← advance
      let _ ← g.operand returnTypes
      return .value
    else return left
  | _ => return left

def assignmentRule (g : Grammar) (returnTypes : Bool) : Parser Shape := do
  if (← read).inGenerator && (← atWord "yield") then yieldRule g
  else
    match ← arrowRule g returnTypes with
    | some _ => return .value
    | none => assignmentRest g returnTypes

end BarrelAlias.Script
