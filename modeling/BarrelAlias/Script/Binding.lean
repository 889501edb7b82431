import BarrelAlias.Script.Name

/-!
Patterns that bind names: a name, a list of patterns, or an object of patterns.
-/

namespace BarrelAlias.Script

def optionalDefault (g : Grammar) : Parser Unit := do
  if ← eatSymbol "=" then
    let _ ← g.operandIn

/-- The items of a list pattern up to its closing bracket; one with three points stands last. -/
def listBinding (g : Grammar) : Nat → Parser (List String)
  | 0 => refuse
  | fuel + 1 => do
    if ← eatSymbol "]" then return []
    if ← eatSymbol "," then return ← listBinding g fuel
    if ← eatSymbol "..." then
      let ns ← g.binding
      expectSymbol "]"
      return ns
    let ns ← g.binding
    optionalDefault g
    if ← eatSymbol "," then return ns ++ (← listBinding g fuel)
    expectSymbol "]"
    return ns

/-- One member of an object pattern: a key with a pattern, or a name that is both. -/
def memberBinding (g : Grammar) : Parser (List String) := do
  let ctx ← read
  let k ← key g
  match k with
  | .privateName _ => refuse
  | k =>
    if ← eatSymbol ":" then
      let ns ← g.binding
      optionalDefault g
      return ns
    match k with
    | .word w _ =>
      require (isFree ctx w)
      optionalDefault g
      return [w]
    | _ => refuse

/-- The members of an object pattern up to its closing brace; one with three points stands last and
binds one name. -/
def objectBinding (g : Grammar) : Nat → Parser (List String)
  | 0 => refuse
  | fuel + 1 => do
    if ← eatSymbol braceClose then return []
    if ← eatSymbol "..." then
      let n ← name
      expectSymbol braceClose
      return [n]
    let ns ← memberBinding g
    if ← eatSymbol "," then return ns ++ (← objectBinding g fuel)
    expectSymbol braceClose
    return ns

/-- A pattern; the names that it binds, in their order. -/
def bindingRule (g : Grammar) : Parser (List String) := do
  if ← eatSymbol "[" then listBinding g g.rounds
  else if ← eatSymbol braceOpen then objectBinding g g.rounds
  else return [← name]

end BarrelAlias.Script
