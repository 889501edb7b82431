import BarrelAlias.Script.Type

/-!
Functions: their bodies, and the short form with an arrow.
-/

namespace BarrelAlias.Script

structure FunctionKind where
  isAsync : Bool
  isGenerator : Bool

def Context.inside (k : FunctionKind) (c : Context) : Context :=
  { c with inAsync := k.isAsync, inGenerator := k.isGenerator, allowIn := true
           inDecorator := false, noConditional := false }

def statementsToBrace (g : Grammar) : Parser Unit := do
  let _ ← many (do
    if ← eatSymbol braceClose then return none
    let _ ← g.statement false
    return some ()) g.rounds

def block (g : Grammar) : Parser Unit := do
  expectSymbol braceOpen
  statementsToBrace g

def functionBody (g : Grammar) : Parser Unit :=
  within (fun c => { c with inFunction := true }) (block g)

/-- A function from its parameters on. Where types may be written the body may be left out. -/
def functionRest (g : Grammar) (k : FunctionKind) : Parser (ParameterCount × Bool) := do
  let count ← within (Context.inside k) (signature g)
  if ← atSymbol braceOpen then
    within (Context.inside k) (functionBody g)
    return (count, true)
  require (← read).types
  endStatement
  return (count, false)

/-- The body of a function with an arrow: statements in braces, or an expression. -/
def arrowBody (g : Grammar) (isAsync returnTypes : Bool) : Parser Unit := do
  let k : FunctionKind := ⟨isAsync, false⟩
  if ← atSymbol braceOpen then within (Context.inside k) (functionBody g)
  else
    let s ← within (fun c => { c with inAsync := isAsync, inGenerator := false
                                      inDecorator := false })
      (g.assignment returnTypes)
    settled s

/-- An arrow on the same line. -/
def arrow : Parser Unit := do
  require !(← onNewLine)
  expectSymbol "=>"

/-- A function with an arrow, from its parameters on; `this` is none of them. Where its result may
not be stated, a colon has to follow it all the same: then the result was no part of something else.
-/
def arrowFunction (g : Grammar) (isAsync returnTypes : Bool) : Parser Unit := do
  let states ← within (fun c => { c with inAsync := c.inAsync || isAsync }) do
    optionalTypeParameters g
    require !(← parameters g).hasThis
    let states := (← read).types && (← atSymbol ":")
    resultAnnotation g
    return states
  arrow
  arrowBody g isAsync returnTypes
  if states && !returnTypes then require (← atSymbol ":")

def eatStar : Parser Bool := eatSymbol "*"

/-- A function with its keyword and perhaps a name; the name, and whether there is a body. -/
def functionRule (g : Grammar) (isAsync isExpression : Bool) : Parser (Option String × Bool) := do
  expectWord "function"
  let k : FunctionKind := ⟨isAsync, ← eatStar⟩
  let change := fun c => if isExpression then Context.inside k c else c
  let name? ← within change do
    if ← atName then return some (← name) else return none
  let (_, hasBody) ← functionRest g k
  return (name?, hasBody)

def atAsyncFunction : Parser Bool := do
  if ← atWord "async" then secondIs fun l => !l.newline && l.token = .word "function" false
  else return false

end BarrelAlias.Script
