import BarrelAlias.Script.Type

/-!
Elements in angle brackets. The text between tags and the values of attributes are not made of
tokens, so they are read off the text itself.
-/

namespace BarrelAlias.Script

def isElementChar (c : Char) : Bool := Text.isIdentifierPart c || c = '-'

/-- One word of a name, in which a hyphen may stand. -/
def elementWord : Parser String := fun ctx cur =>
  match h : cur.ahead with
  | some l =>
    match l.token with
    | .word _ false =>
      let taken := l.source.takeWhile isElementChar
      some (String.ofList taken,
        cur.moveTo ctx.marks (l.span.start + Text.byteLength taken) (l.source.drop taken.length)
          ((cur.standsIn l h).source.trans (.takeWhile _ _ _)))
    | _ => none
  | none => none

/-- The rest of a name whose words have points between them; after a point no hyphen may stand. -/
def elementMembers (text : String) : Nat → Parser String
  | 0 => refuse
  | fuel + 1 => do
    if ← eatSymbol "." then
      let w ← elementWord
      require ('-' ∉ w.toList)
      elementMembers (text ++ "." ++ w) fuel
    else return text

def elementName (g : Grammar) : Parser String := do
  let w ← elementWord
  if ← eatSymbol ":" then return w ++ ":" ++ (← elementWord)
  elementMembers w g.rounds

/-- Up to the quote that ends it, a quoted text is the start of its text. -/
theorem attribute_split {c d : Char} {cs rest : List Char}
    (h : cs.drop (cs.takeWhile (· ≠ c)).length = d :: rest) :
    (c :: cs.takeWhile (· ≠ c) ++ [d]) ++ rest = c :: cs := by
  conv => rhs; rw [← Text.takeWhile_append_drop (· ≠ c) cs, h]
  simp

/-- A quoted text that is the value of an attribute, in which nothing is escaped; whether there is
one. -/
def attributeText : Parser Bool := fun ctx cur =>
  match hgap : skipGap ctx.marks .blank false 0 cur.rest with
  | none => none
  | some gap =>
    match htext : gap.rest with
    | [] => none
    | c :: cs =>
      if c = '"' || c = '\x27' then
        match hbody : cs.drop (cs.takeWhile (· ≠ c)).length with
        | d :: rest =>
          let taken := c :: cs.takeWhile (· ≠ c) ++ [d]
          have hsplit : taken ++ rest = gap.rest := htext ▸ attribute_split hbody
          some (true,
            cur.moveTo ctx.marks (cur.stop + gap.bytes + Text.byteLength taken) rest
              (((skipGap_goesOn hgap).shift cur.stop).trans ⟨taken, hsplit, rfl⟩))
        | [] => none
      else some (false, cur.here)

def attributeValue (g : Grammar) : Parser Unit := do
  unless ← attributeText do
    if ← eatSymbol braceOpen then
      let _ ← g.operandIn
      expectSymbol braceClose
    else
      require (← atSymbol "<")
      g.element

/-- One attribute of an element; none if the tag ends. -/
def elementAttribute (g : Grammar) : Parser (Option Unit) := do
  if ← atAnySymbol ["/", ">"] then return none
  if ← eatSymbol braceOpen then
    expectSymbol "..."
    let _ ← g.operandIn
    expectSymbol braceClose
  else
    let _ ← elementWord
    if ← eatSymbol ":" then
      let _ ← elementWord
    if ← eatSymbol "=" then attributeValue g
  return some ()

/-- Skips the text between tags; neither a closing bracket nor a closing brace may stand in it. -/
def childText : Parser Unit := fun ctx cur =>
  let taken := cur.rest.takeWhile fun c => c ≠ '<' && c ≠ '{'
  if taken.any fun c => c = '>' || c = '}' then none
  else
    some ((),
      cur.moveTo ctx.marks (cur.stop + Text.byteLength taken) (cur.rest.drop taken.length)
        (.takeWhile _ _ _))

/-- An expression between tags, after its opening brace; there may be none. -/
def childExpression (g : Grammar) : Parser Unit := do
  unless ← eatSymbol braceClose do
    let _ ← eatSymbol "..."
    let _ ← g.operandIn
    expectSymbol braceClose

def children (g : Grammar) : Nat → Parser Unit
  | 0 => refuse
  | fuel + 1 => do
    childText
    if ← eatSymbol braceOpen then
      childExpression g
      children g fuel
    else
      require (← atSymbol "<")
      unless ← secondIs fun l => l.token = .symbol "/" do
        g.element
        children g fuel

/-- An element. The tag that closes it has its name. -/
def elementRule (g : Grammar) : Parser Unit := do
  expectSymbol "<"
  if ← eatSymbol ">" then
    children g g.rounds
    expectSymbol "<"
    expectSymbol "/"
    expectSymbol ">"
  else
    let opening ← elementName g
    if (← read).types then optionalTypeArguments g
    let _ ← many (elementAttribute g) g.rounds
    if ← eatSymbol "/" then expectSymbol ">"
    else
      expectSymbol ">"
      children g g.rounds
      expectSymbol "<"
      expectSymbol "/"
      require ((← elementName g) = opening)
      expectSymbol ">"

end BarrelAlias.Script
