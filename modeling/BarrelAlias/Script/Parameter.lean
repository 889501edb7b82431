import BarrelAlias.Script.Name

/-!
The parameters of functions.
-/

namespace BarrelAlias.Script

/-- A type after a colon, where types may be written. -/
def annotation (g : Grammar) : Parser Unit := do
  if (← read).types then
    if ← eatSymbol ":" then g.type

/-- Decorators, each an expression after `@`; whether there are any. -/
def decorators (g : Grammar) : Parser Bool := do
  let found ← many (do
    if ← eatSymbol "@" then
      let s ← within (fun c => { c with inDecorator := true }) g.leftSide
      settled s
      return some ()
    else return none) g.rounds
  return !found.isEmpty

/-- The words that make a parameter a member. -/
def parameterModifiers : List String := ["public", "private", "protected", "readonly", "override"]

def isBindingStart : Token → Bool
  | .word _ _ => true
  | .symbol s => s = braceOpen || s = "["
  | _ => false

def skipParameterModifiers (g : Grammar) : Parser Unit := do
  let _ ← many (do
    match (← peek).token with
    | .word w false =>
      if w ∈ parameterModifiers then
        if ← secondIs fun l => isBindingStart l.token then
          let _ ← advance
          return some ()
        else return none
      else return none
    | _ => return none) g.rounds

/-- A parameter that takes all remaining values, after its three points. -/
def restParameter (g : Grammar) : Parser Unit := do
  let _ ← g.binding
  annotation g

/-- A parameter that only states the type of `this`; whether it is one. -/
def thisParameter (g : Grammar) : Parser Bool := do
  if (← read).types then
    if ← eatWord "this" then
      annotation g
      return true
    else return false
  else return false

def plainParameter (g : Grammar) : Parser Unit := do
  let _ ← g.binding
  if (← read).types then
    let _ ← eatSymbol "?"
  annotation g
  if ← eatSymbol "=" then g.initializer

/-- What the parameters of a function are, as far as it is fixed for some. -/
structure ParameterCount where
  plain : Nat
  hasRest : Bool
  hasThis : Bool

def ParameterCount.after (c : ParameterCount) (isThis : Bool) : ParameterCount :=
  if isThis then { c with hasThis := true } else { c with plain := c.plain + 1 }

/-- Parameters up to the closing bracket; one that takes all remaining values stands last. -/
def parameterList (g : Grammar) : Nat → Parser ParameterCount
  | 0 => refuse
  | fuel + 1 => do
    if ← eatSymbol ")" then return ⟨0, false, false⟩
    let _ ← decorators g
    if (← read).types then skipParameterModifiers g
    if ← eatSymbol "..." then
      restParameter g
      expectSymbol ")"
      return ⟨0, true, false⟩
    let isThis ← thisParameter g
    unless isThis do plainParameter g
    if ← eatSymbol "," then return (← parameterList g fuel).after isThis
    expectSymbol ")"
    return ParameterCount.after ⟨0, false, false⟩ isThis

def parameters (g : Grammar) : Parser ParameterCount := do
  expectSymbol "("
  within (fun c => { c with allowIn := true, inDecorator := false }) (parameterList g g.rounds)

end BarrelAlias.Script
