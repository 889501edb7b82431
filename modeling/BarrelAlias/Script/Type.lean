import BarrelAlias.Script.Parameter

/-!
Types.
-/

namespace BarrelAlias.Script

/-- Takes an opening angle bracket, even if it begins a longer symbol; whether there is one. -/
def eatAngle : Parser Bool := do
  if ← atAnySymbol ["<", "<<", "<=", "<<="] then
    reread scanOpening
    let _ ← advance
    return true
  else return false

def typeArgumentsRest (g : Grammar) : Parser Unit := do
  let ts ← commaList ">" g.type g.rounds
  require !ts.isEmpty

def typeArguments (g : Grammar) : Parser Unit := do
  require (← eatAngle)
  within (fun c => { c with noConditional := false }) (typeArgumentsRest g)

/-- Types between angle brackets on the same line, if there are any. -/
def optionalTypeArguments (g : Grammar) : Parser Unit := do
  if ← atAnySymbol ["<", "<<"] then
    unless ← onNewLine do typeArguments g

def typeParameter (g : Grammar) : Parser Unit := do
  let _ ← many (do
    if ← eatWord "const" then return some ()
    if ← eatWord "in" then return some ()
    if ← atWord "out" then
      if ← secondIs fun l => isWordToken l.token && l.token ≠ .word "extends" false then
        let _ ← advance
        return some ()
    return none) g.rounds
  let _ ← name
  if ← eatWord "extends" then g.type
  if ← eatSymbol "=" then g.type

def typeParameters (g : Grammar) : Parser Unit := do
  require (← eatAngle)
  let ps ← within (fun c => { c with noConditional := false })
    (commaList ">" (typeParameter g) g.rounds)
  require !ps.isEmpty

/-- Parameters of a generic declaration, where types may be written and there are any. -/
def optionalTypeParameters (g : Grammar) : Parser Unit := do
  if (← read).types then
    if ← atAnySymbol ["<", "<<"] then typeParameters g

/-- Whether the token can be the subject of a type predicate. -/
def isSubject (ctx : Context) (t : Token) : Bool := isFreeToken ctx t || t = .word "this" false

/-- A type, or a predicate that says what a result means. -/
def resultType (g : Grammar) : Parser Unit := do
  let ctx ← read
  if isFreeToken ctx (← peek).token then
    if ← secondIs fun l => !l.newline && l.token = .word "is" false then
      let _ ← advance
      let _ ← advance
      g.type
      return ()
  g.type

def resultAnnotation (g : Grammar) : Parser Unit := do
  if (← read).types then
    if ← eatSymbol ":" then
      within (fun c => { c with noConditional := false }) (resultType g)

def functionType (g : Grammar) : Parser Unit := do
  optionalTypeParameters g
  let _ ← parameters g
  expectSymbol "=>"
  resultType g

def constructorType (g : Grammar) : Parser Unit := do
  let _ ← eatWord "abstract"
  expectWord "new"
  functionType g

/-- The types on both sides of a symbol, which may also stand in front. -/
def operands (symbol : String) (operand : Parser Unit) (fuel : Nat) : Parser Unit := do
  let _ ← eatSymbol symbol
  let _ ← separated symbol operand fuel

def unionType (g : Grammar) : Parser Unit :=
  operands "|" (operands "&" g.operandType g.rounds) g.rounds

def conditionalRest (g : Grammar) : Parser Unit := do
  within (fun c => { c with noConditional := true }) g.type
  expectSymbol "?"
  within (fun c => { c with noConditional := false }) do
    g.type
    expectSymbol ":"
    g.type

def typeRule (g : Grammar) : Parser Unit := do
  if ← atAnySymbol ["<", "<<"] then functionType g
  else if ← atWord "new" then constructorType g
  else if (← atWord "abstract") && (← secondIs fun l => l.token = .word "new" false) then
    constructorType g
  else
    let isFunction ←
      if ← atSymbol "(" then attempt (functionType g) else pure none
    if isFunction.isNone then
      unionType g
      if !(← read).noConditional && (← atWord "extends") && !(← onNewLine) then
        let _ ← advance
        conditionalRest g

/-- The bound on a type that is to be inferred; it is none if a conditional type follows. -/
def inferBound (g : Grammar) : Parser Unit := do
  expectWord "extends"
  within (fun c => { c with noConditional := true }) g.type
  require ((← read).noConditional || !(← atSymbol "?"))

def startsType : Token → Bool
  | .word w _ =>
    w ∉ reservedWords || w ∈ ["void", "null", "true", "false", "this", "typeof", "import", "new"]
  | .quoted _ _ => true
  | .number => true
  | .template _ _ => true
  | .symbol s => s ∈ [braceOpen, "[", "(", "<", "<<", "|", "&", "-", "?", "!", "*", "..."]
  | _ => false

/-- The end of a type, on the same line: brackets, or a mark that says whether it may be missing. -/
def typeSuffixes (g : Grammar) : Parser Unit := do
  let _ ← many (do
    if ← onNewLine then return none
    if ← eatSymbol "[" then
      unless ← eatSymbol "]" do
        g.type
        expectSymbol "]"
      return some ()
    if ← eatSymbol "!" then return some ()
    if (← atSymbol "?") && !(← secondIs fun l => startsType l.token) then
      let _ ← advance
      return some ()
    return none) g.rounds

def endMember : Parser Unit := do
  if ← eatSymbol "," then return ()
  endStatement

def signature (g : Grammar) : Parser ParameterCount := do
  optionalTypeParameters g
  let c ← parameters g
  resultAnnotation g
  return c

def indexMember (g : Grammar) : Parser Unit := do
  let _ ← name
  expectSymbol ":"
  g.type
  let _ ← eatSymbol ","
  expectSymbol "]"
  expectSymbol ":"
  g.type

def atIndexMember : Parser Bool := do
  let r ← lookahead do
    expectSymbol "["
    let _ ← name
    expectSymbol ":"
  return r.isSome

/-- Takes a modifier if a key follows it; whether it did. -/
def eatModifier (w : String) (sameLine : Bool) : Parser Bool := do
  if ← atWord w then
    if ← secondIs fun l => !(sameLine && l.newline) && isKeyToken l.token then
      let _ ← advance
      return true
    else return false
  else return false

/-- The key of a member of a type, which cannot be private. -/
def typeKey (g : Grammar) : Parser Unit := do
  match ← key g with
  | .privateName _ => refuse
  | _ => return ()

def namedMember (g : Grammar) : Parser Unit := do
  typeKey g
  let _ ← eatSymbol "?"
  if ← atAnySymbol ["(", "<", "<<"] then
    let _ ← signature g
  else annotation g

def typeMember (g : Grammar) : Parser Unit := do
  if ← atAnySymbol ["(", "<", "<<"] then
    let _ ← signature g
  else if (← atWord "new") && (← secondIs fun l => l.token ∈ [.symbol "(", .symbol "<"]) then
    let _ ← advance
    let _ ← signature g
  else
    let _ ← eatModifier "readonly" true
    if ← atIndexMember then
      let _ ← advance
      indexMember g
    else
      let isGetter ← eatModifier "get" false
      let isAccessor ← if isGetter then pure true else eatModifier "set" false
      if isAccessor then
        typeKey g
        let _ ← signature g
      else namedMember g
  endMember

def typeMembers (g : Grammar) : Parser Unit := do
  expectSymbol braceOpen
  let _ ← many (do
    if ← eatSymbol braceClose then return none
    typeMember g
    return some ()) g.rounds

def eatSign : Parser Bool := do
  if ← eatSymbol "+" then return true
  eatSymbol "-"

/-- Whether a type with a member for each of several keys is ahead. -/
def atMappedType : Parser Bool := do
  let r ← lookahead do
    expectSymbol braceOpen
    if ← eatSign then expectWord "readonly"
    else
      let _ ← eatWord "readonly"
    expectSymbol "["
    let _ ← anyWord
    expectWord "in"
  return r.isSome

def mappedType (g : Grammar) : Parser Unit := do
  expectSymbol braceOpen
  if ← eatSign then expectWord "readonly"
  else
    let _ ← eatWord "readonly"
  expectSymbol "["
  let _ ← anyWord
  expectWord "in"
  g.type
  if ← eatWord "as" then g.type
  expectSymbol "]"
  if ← eatSign then expectSymbol "?"
  else
    let _ ← eatSymbol "?"
  annotation g
  unless ← eatSymbol "," do endStatement
  expectSymbol braceClose

def atLabel : Parser Bool := do
  let r ← lookahead do
    let _ ← anyWord
    let _ ← eatSymbol "?"
    expectSymbol ":"
  return r.isSome

def tupleItem (g : Grammar) : Parser Unit := do
  let _ ← eatSymbol "..."
  if ← atLabel then
    let _ ← advance
    let _ ← eatSymbol "?"
    expectSymbol ":"
  g.type
  let _ ← eatSymbol "?"

def templateTypeRest (g : Grammar) : Nat → Parser Unit
  | 0 => refuse
  | fuel + 1 => do
    g.type
    require (← atSymbol braceClose)
    reread scanTemplateMore
    match (← advance).token with
    | .template true _ => templateTypeRest g fuel
    | .template false _ => return ()
    | _ => refuse

/-- Key and value of an import attribute; the key is what counts. -/
def importAttribute : Parser String := do
  let k ←
    match (← advance).token with
    | .word w _ => pure w
    | .quoted s _ => pure s
    | _ => refuse
  expectSymbol ":"
  let _ ← quotedText
  return k

/-- The attributes of an import in braces, no two of them with one key. -/
def importAttributes (fuel : Nat) : Parser Unit := do
  expectSymbol braceOpen
  let ks ← commaList braceClose importAttribute fuel
  require (ks.eraseDups.length = ks.length)

def importType (g : Grammar) : Parser Unit := do
  expectSymbol "("
  g.type
  if ← eatSymbol "," then
    unless ← atSymbol ")" do
      expectSymbol braceOpen
      unless ← eatWord "with" do expectWord "assert"
      expectSymbol ":"
      importAttributes g.rounds
      let _ ← eatSymbol ","
      expectSymbol braceClose
      let _ ← eatSymbol ","
  expectSymbol ")"
  if ← eatSymbol "." then dottedName g.rounds
  optionalTypeArguments g

def assertion (g : Grammar) : Parser Unit := do
  let _ ← advance
  if ← eatWord "is" then g.type

/-- Whether an assertion is ahead, which its subject follows on the same line. -/
def atAssertion : Parser Bool := do
  let ctx ← read
  if ← atWord "asserts" then secondIs fun l => !l.newline && isSubject ctx l.token
  else return false

/-- The words that are types by themselves, but that may also begin a dotted name. -/
def keywordTypes : List String :=
  ["any", "unknown", "string", "number", "bigint", "symbol", "boolean", "undefined", "never", "object"]

def wordType (g : Grammar) (w : String) : Parser Unit := do
  if w ∈ ["void", "null", "true", "false"] then
    let _ ← advance
  else if w = "this" then
    let _ ← advance
    if (← atWord "is") && !(← onNewLine) then
      let _ ← advance
      g.type
  else if ← atAssertion then
    let _ ← advance
    assertion g
  else if w = "typeof" then
    let _ ← advance
    if ← eatWord "import" then importType g
    else
      dottedName g.rounds
      optionalTypeArguments g
  else if w = "import" then
    let _ ← advance
    importType g
  else if w ∈ reservedWords then refuse
  else if w ∈ keywordTypes && !(← secondIs fun l => l.token = .symbol ".") then
    -- no type arguments: the `<` in `x as number < n` compares
    let _ ← advance
  else
    dottedName g.rounds
    optionalTypeArguments g

def primaryType (g : Grammar) : Parser Unit := do
  match (← peek).token with
  | .word w _ => wordType g w
  | .quoted _ _ => let _ ← advance
  | .number => let _ ← advance
  | .template opens _ =>
    let _ ← advance
    if opens then templateTypeRest g g.rounds
  | .symbol "-" =>
    let _ ← advance
    expectToken .number
  | .symbol "!" =>
    let _ ← advance
    g.operandType
  | .symbol "?" =>
    let _ ← advance
    unless ← atAnySymbol [",", braceClose, ")", ">", "=", "|"] do g.type
  | .symbol "(" =>
    let _ ← advance
    g.type
    expectSymbol ")"
  | .symbol "[" =>
    let _ ← advance
    let _ ← commaList "]" (tupleItem g) g.rounds
  | .symbol s =>
    if s = braceOpen then
      if ← atMappedType then mappedType g else typeMembers g
    else refuse
  | _ => refuse

/-- A type with brackets after it, in which conditional types may stand again. -/
def suffixedType (g : Grammar) : Parser Unit :=
  within (fun c => { c with noConditional := false }) do
    primaryType g
    typeSuffixes g

def operandTypeRule (g : Grammar) : Parser Unit := do
  match (← peek).token with
  | .word w false =>
    if w ∈ ["keyof", "unique", "readonly"] then
      let _ ← advance
      g.operandType
    else if w = "infer" then
      let _ ← advance
      let _ ← name
      let _ ← attempt (inferBound g)
    else suffixedType g
  | _ => suffixedType g

end BarrelAlias.Script
