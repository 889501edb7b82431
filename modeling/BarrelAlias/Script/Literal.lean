import BarrelAlias.Script.Function

/-!
Lists and objects. Each can turn out to be a pattern once `=` follows it, so their shape says
whether it reads as one.
-/

namespace BarrelAlias.Script

/-- How a literal reads so far: as a pattern, and as nothing but a pattern. -/
structure Reading where
  fits : Bool
  pending : Bool

def Reading.and (a b : Reading) : Reading := ⟨a.fits && b.fits, a.pending || b.pending⟩

def Reading.shape (r : Reading) : Shape := .literal r.fits r.pending

def Reading.ofElement (s : Shape) : Reading := ⟨s.isElement, s.isPending⟩

/-- The items of a list up to its closing bracket; a pattern has three points only at its end. -/
def listItems (g : Grammar) : Nat → Parser Reading
  | 0 => refuse
  | fuel + 1 => do
    if ← eatSymbol "]" then return ⟨true, false⟩
    if ← eatSymbol "," then return ← listItems g fuel
    if ← eatSymbol "..." then
      let s ← g.assignment true
      if ← eatSymbol "]" then return ⟨s.isTarget, s.isPending⟩
      expectSymbol ","
      let r ← listItems g fuel
      return Reading.and ⟨false, s.isPending⟩ r
    let r := Reading.ofElement (← g.assignment true)
    if ← eatSymbol "," then return r.and (← listItems g fuel)
    expectSymbol "]"
    return r

def listLiteral (g : Grammar) : Parser Shape := do
  let r ← within (fun c => { c with allowIn := true, inDecorator := false }) (listItems g g.rounds)
  return r.shape

/-- A member with a key: a value, a method, or a name that is both. -/
def keyedMember (g : Grammar) : Parser Reading := do
  let ctx ← read
  let k ← key g
  match k with
  | .privateName _ => refuse
  | k =>
    if ← atAnySymbol ["(", "<", "<<"] then
      let _ ← functionRest g ⟨false, false⟩
      return ⟨false, false⟩
    if ← eatSymbol ":" then return .ofElement (← g.assignment true)
    match k with
    | .word w _ =>
      require (isFree ctx w)
      if ← eatSymbol "=" then
        g.initializer
        return ⟨true, true⟩
      return ⟨true, false⟩
    | _ => refuse

def markedMethod (g : Grammar) (k : FunctionKind) : Parser Reading := do
  match ← key g with
  | .privateName _ => refuse
  | _ =>
    require (← atAnySymbol ["(", "<", "<<"])
    let _ ← functionRest g k
    return ⟨false, false⟩

def objectAccessor (g : Grammar) (isGetter : Bool) : Parser Reading := do
  match ← key g with
  | .privateName _ => refuse
  | _ =>
    let (count, _) ← functionRest g ⟨false, false⟩
    if isGetter then require (count.plain = 0 && !count.hasRest)
    else require (count.plain = 1 && !count.hasRest)
    return ⟨false, false⟩

/-- Takes `async` if a method follows it on the same line; whether it did. -/
def eatAsync : Parser Bool := do
  if ← atWord "async" then
    if ← secondIs fun l => !l.newline && (isKeyToken l.token || l.token = .symbol "*") then
      let _ ← advance
      return true
    else return false
  else return false

def objectMember (g : Grammar) : Parser Reading := do
  if ← eatModifier "get" false then objectAccessor g true
  else if ← eatModifier "set" false then objectAccessor g false
  else if ← eatAsync then
    let isGenerator ← eatStar
    markedMethod g ⟨true, isGenerator⟩
  else if ← eatStar then markedMethod g ⟨false, true⟩
  else keyedMember g

def objectMembers (g : Grammar) : Nat → Parser Reading
  | 0 => refuse
  | fuel + 1 => do
    if ← eatSymbol braceClose then return ⟨true, false⟩
    if ← eatSymbol "..." then
      let s ← g.assignment true
      settled s
      if ← eatSymbol braceClose then return ⟨s.isPlace, false⟩
      expectSymbol ","
      let r ← objectMembers g fuel
      return Reading.and ⟨false, false⟩ r
    let r ← objectMember g
    if ← eatSymbol "," then return r.and (← objectMembers g fuel)
    expectSymbol braceClose
    return r

def objectLiteral (g : Grammar) : Parser Shape := do
  let r ← within (fun c => { c with allowIn := true, inDecorator := false })
    (objectMembers g g.rounds)
  return r.shape

end BarrelAlias.Script
