import BarrelAlias.Script.Function

/-!
Classes.
-/

namespace BarrelAlias.Script

def typeReferences (g : Grammar) : Parser Unit := do
  let _ ← separated "," (do dottedName g.rounds; optionalTypeArguments g) g.rounds

def memberModifiers : List String :=
  ["public", "private", "protected", "abstract", "override", "readonly", "declare", "accessor"]

def canFollowModifier (t : Token) : Bool := isKeyToken t || t = .symbol "*"

/-- Takes a word that is a modifier here; whether it did. -/
def eatMemberModifier (w : String) (sameLine : Bool) : Parser Bool := do
  if ← atWord w then
    if ← secondIs fun l => !(sameLine && l.newline) && canFollowModifier l.token then
      let _ ← advance
      return true
    else return false
  else return false

/-- Takes one modifier; which one it was. A second `static` is a name. -/
def memberModifier (seen : List String) : Parser (Option String) := do
  let types := (← read).types
  match (← peek).token with
  | .word w false =>
    if w = "static" then
      if w ∈ seen then return none
      if ← eatMemberModifier w false then return some w else return none
    else if w = "accessor" || (types && w ∈ memberModifiers) then
      if ← eatMemberModifier w true then return some w else return none
    else return none
  | _ => return none

/-- The modifiers that say who may use a member. -/
def accessModifiers : List String := ["public", "private", "protected"]

/-- Whether no modifier is given twice, and who may use the member is said once. -/
def areModifiers (ws : List String) : Bool :=
  ws.eraseDups.length = ws.length && (ws.filter (· ∈ accessModifiers)).length ≤ 1

def modifierList (seen : List String) : Nat → Parser (List String)
  | 0 => refuse
  | fuel + 1 => do
    match ← memberModifier seen with
    | some w => modifierList (w :: seen) fuel
    | none => require (areModifiers seen); return seen

def Key.isConstructor : Key → Bool
  | word w _ => w = "constructor"
  | quoted w => w = "constructor"
  | _ => false

def Key.isPrototype : Key → Bool
  | word w _ => w = "prototype"
  | quoted w => w = "prototype"
  | _ => false

/-- The key of a member of a class; some keys are spoken for. -/
def memberKey (g : Grammar) (isStatic isSpecial : Bool) : Parser Key := do
  let k ← key g
  match k with
  | .privateName n => require (n ≠ "constructor")
  | _ => pure ()
  require !(isStatic && k.isPrototype)
  require !(!isStatic && isSpecial && k.isConstructor)
  return k

/-- The rest of a member that is no method: its type and its value. -/
def fieldRest (g : Grammar) (k : Key) : Parser Unit := do
  require !k.isConstructor
  annotation g
  if ← eatSymbol "=" then
    within (fun c => { c with inFunction := false, inGenerator := false, inAsync := false })
      g.initializer
  endStatement

/-- A member that reads or writes; how many parameters it has is fixed. -/
def accessorRest (g : Grammar) (isStatic isGetter : Bool) : Parser Unit := do
  let _ ← memberKey g isStatic true
  let (count, _) ← functionRest g ⟨false, false⟩
  if isGetter then require (count.plain = 0 && !count.hasRest)
  else require (count.plain = 1 && !count.hasRest)

/-- A constructor after its name; it has neither type parameters nor `this`. -/
def constructorRest (g : Grammar) : Parser Unit := do
  require (← atSymbol "(")
  let (count, _) ← functionRest g ⟨false, false⟩
  require !count.hasThis

def plainMember (g : Grammar) (isStatic : Bool) : Parser Unit := do
  let isAsync ← eatMemberModifier "async" true
  let isGenerator ← eatStar
  let k ← memberKey g isStatic (isAsync || isGenerator)
  if !isStatic && k.isConstructor then constructorRest g
  else
    let types := (← read).types
    let isOptional ← if types then eatSymbol "?" else pure false
    if ← atAnySymbol ["(", "<", "<<"] then
      let _ ← functionRest g ⟨isAsync, isGenerator⟩
    else
      require !(isAsync || isGenerator)
      if types && !isOptional then
        let _ ← eatSymbol "!"
      fieldRest g k

def staticBlock (g : Grammar) : Parser Unit := do
  let _ ← advance
  within (fun c => { c with inFunction := false, inGenerator := false, inAsync := true }) (block g)

def classMember (g : Grammar) : Parser Unit := do
  if ← eatSymbol ";" then return ()
  let _ ← decorators g
  if (← atWord "static") && (← secondIs fun l => l.token = .symbol braceOpen) then staticBlock g
  else
    let modifiers ← modifierList [] g.rounds
    let isStatic := "static" ∈ modifiers
    if (← read).types && (← atIndexMember) then
      let _ ← advance
      indexMember g
      endStatement
    else if ← eatModifier "get" false then accessorRest g isStatic true
    else if ← eatModifier "set" false then accessorRest g isStatic false
    else plainMember g isStatic

def classBody (g : Grammar) : Parser Unit := do
  expectSymbol braceOpen
  let _ ← many (do
    if ← eatSymbol braceClose then return none
    classMember g
    return some ()) g.rounds

/-- The clauses that say what a class builds on, first the class that it extends. -/
def heritage (g : Grammar) : Parser Unit := do
  let types := (← read).types
  if ← eatWord "extends" then
    settled (← g.leftSide)
    if types then optionalTypeArguments g
  if types then
    if ← eatWord "implements" then typeReferences g

/-- A class from its keyword on; its name, if it has one. -/
def classRule (g : Grammar) : Parser (Option String) := do
  expectWord "class"
  let isNamed ←
    if ← atName then
      if ← atWord "implements" then pure !(← secondIs fun l => isWordToken l.token)
      else pure true
    else pure false
  let name? ← if isNamed then pure (some (← name)) else pure none
  within (fun c => { c with allowIn := true, inDecorator := false }) do
    optionalTypeParameters g
    heritage g
    classBody g
  return name?

end BarrelAlias.Script
