import BarrelAlias.Script.Class

/-!
Declarations: variables, functions, classes, and those that come with types.
-/

namespace BarrelAlias.Script

def values (ns : List String) : List LocalDecl := ns.map (⟨·, .value⟩)

/-- The names that a declaration brings, and whether none of them lacks a value. -/
structure Declared where
  names : List String
  complete : Bool

/-- A variable with its type and its value. A constant and a pattern need a value, unless the
declaration is ambient. -/
def declarator (g : Grammar) (isConstant : Bool) : Parser Declared := do
  let ctx ← read
  let isPattern ← atAnySymbol ["[", braceOpen]
  let ns ← g.binding
  if ctx.types then
    unless isPattern || (← onNewLine) do
      let _ ← eatSymbol "!"
    let _ ← eatSymbol "?"
  annotation g
  if ← eatSymbol "=" then
    g.initializer
    return ⟨ns, true⟩
  return ⟨ns, ctx.ambient || !(isConstant || isPattern)⟩

def declarators (g : Grammar) (isConstant : Bool) : Parser Declared := do
  let ds ← separated "," (declarator g isConstant) g.rounds
  return ⟨ds.flatMap (·.names), ds.all (·.complete)⟩

def atLetDeclaration : Parser Bool := do
  let ctx ← read
  if ← atWord "let" then
    secondIs fun l => isFreeToken ctx l.token || l.token ∈ [.symbol "[", .symbol braceOpen]
  else return false

def atUsing : Parser Bool := do
  if ← atWord "using" then nameFollows else return false

def atAwaitUsing : Parser Bool := do
  if (← read).inAsync && (← atWord "await") then
    let r ← lookahead do
      let _ ← advance
      require !(← onNewLine)
      require (← atUsing)
    return r.isSome
  else return false

/-- Takes the word that opens a declaration of variables; whether its variables are constant. -/
def variableWord : Parser (Option Bool) := do
  if ← eatWord "var" then return some false
  if ← eatWord "const" then return some true
  if ← atLetDeclaration then
    let _ ← advance
    return some false
  return none

/-- The same with the words that open a declaration of resources, which are constant. -/
def variableWords : Parser (Option Bool) := do
  if let some isConstant ← variableWord then return some isConstant
  if ← atUsing then
    let _ ← advance
    return some true
  if ← atAwaitUsing then
    let _ ← advance
    let _ ← advance
    return some true
  return none

def variableList (g : Grammar) (isConstant : Bool) : Parser (List LocalDecl) := do
  let d ← declarators g isConstant
  require d.complete
  endStatement
  return values d.names

def interfaceRule (g : Grammar) : Parser LocalDecl := do
  expectWord "interface"
  let n ← name
  optionalTypeParameters g
  if ← eatWord "extends" then typeReferences g
  typeMembers g
  return ⟨n, .type⟩

def typeAlias (g : Grammar) : Parser LocalDecl := do
  expectWord "type"
  let n ← name
  optionalTypeParameters g
  expectSymbol "="
  g.type
  endStatement
  return ⟨n, .type⟩

/-- The key of a member of an enumeration, in brackets: a text without expressions in it. -/
def enumKey : Parser Unit := do
  match (← advance).token with
  | .quoted _ _ => pure ()
  | .template opens sound => require (!opens && sound)
  | _ => refuse

def enumMember (g : Grammar) : Parser Unit := do
  match (← advance).token with
  | .word _ _ => pure ()
  | .quoted _ _ => pure ()
  | .symbol "[" =>
    enumKey
    expectSymbol "]"
  | _ => refuse
  if ← eatSymbol "=" then
    let _ ← g.operandIn

def enumRule (g : Grammar) : Parser LocalDecl := do
  let _ ← eatWord "const"
  expectWord "enum"
  let n ← name
  expectSymbol braceOpen
  let _ ← commaList braceClose (enumMember g) g.rounds
  return ⟨n, .value⟩

def namespaceBody (g : Grammar) : Parser Unit :=
  within (fun c => { c with inFunction := false, inGenerator := false }) (block g)

/-- A namespace; a module with a quoted name declares nothing here. -/
def namespaceRule (g : Grammar) : Parser (List LocalDecl) := do
  let keyword ← anyWord
  if keyword = "global" then
    namespaceBody g
    return [⟨"global", .value⟩]
  if ← atQuoted then
    require (keyword = "module")
    let _ ← advance
    if ← atSymbol braceOpen then namespaceBody g else endStatement
    return []
  let n ← name
  if ← eatSymbol "." then dottedName g.rounds
  namespaceBody g
  return [⟨n, .value⟩]

def quotedFollows : Parser Bool :=
  secondIs fun l =>
    match l.token with
    | .quoted _ _ => !l.newline
    | _ => false

/-- Whether a declaration that comes with types is ahead. Most of its words are names elsewhere, so
what follows them decides. -/
def atTypedDeclaration : Parser Bool := do
  match (← peek).token with
  | .word w false =>
    if w = "interface" || w = "type" || w = "namespace" then nameFollows
    else if w = "module" then return (← nameFollows) || (← quotedFollows)
    else if w = "global" then secondIs fun l => l.token = .symbol braceOpen
    else if w = "enum" then return true
    else if w = "const" then secondIs fun l => l.token = .word "enum" false
    else if w = "abstract" then secondIs fun l => !l.newline && l.token = .word "class" false
    else return false
  | _ => return false

def atPlainDeclaration : Parser Bool := do
  match (← peek).token with
  | .word w false =>
    if w ∈ ["var", "const", "function", "class"] then return true
    else return (← atLetDeclaration) || (← atUsing) || (← atAsyncFunction)
  | .symbol "@" => return true
  | _ => return false

def atAmbientDeclaration : Parser Bool := do
  if ← atWord "declare" then
    let r ← lookahead do
      let _ ← advance
      require !(← onNewLine)
      require ((← atTypedDeclaration) || (← atPlainDeclaration))
    return r.isSome
  else return false

def namedFunction (g : Grammar) (isAsync : Bool) : Parser (List LocalDecl × Bool) := do
  let (n, hasBody) ← functionRule g isAsync false
  match n with
  | some n => return (values [n], hasBody)
  | none => refuse

/-- A declaration, if there is one; whether it is a function with a body is told apart, because none
may be declared ambient. -/
def declarationStep (g : Grammar) : Parser (Option (List LocalDecl × Bool)) := do
  if ← atWord "function" then return some (← namedFunction g false)
  if ← atAsyncFunction then
    let _ ← advance
    return some (← namedFunction g true)
  if ← atWord "class" then return some (values (← classRule g).toList, false)
  if (← read).types && (← atTypedDeclaration) then
    if ← atWord "interface" then return some ([← interfaceRule g], false)
    if ← atWord "type" then return some ([← typeAlias g], false)
    if (← atWord "enum") || (← atWord "const") then return some ([← enumRule g], false)
    if ← eatWord "abstract" then return some (values (← classRule g).toList, false)
    return some (← namespaceRule g, false)
  match ← variableWord with
  | some isConstant => return some (← variableList g isConstant, false)
  | none => return none

def declaration (g : Grammar) : Parser (Option (List LocalDecl)) := do
  if (← read).types && (← atAmbientDeclaration) then
    let _ ← advance
    match ← within (fun c => { c with ambient := true }) (do
      let _ ← decorators g
      declarationStep g) with
    | some (ds, hasBody) => require !hasBody; return some ds
    | none => refuse
  return (← declarationStep g).map (·.1)

end BarrelAlias.Script
