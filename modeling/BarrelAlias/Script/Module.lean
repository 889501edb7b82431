import BarrelAlias.Script.Declare

/-!
Imports and exports.
-/

namespace BarrelAlias.Script

def optionalAttributes (fuel : Nat) : Parser Unit := do
  if ← eatWord "with" then importAttributes fuel
  else if (← atWord "assert") && !(← onNewLine) then
    let _ ← advance
    importAttributes fuel

/-- The end of a statement that names another module: its specifier and what follows it. -/
def fromModule (g : Grammar) : Parser Specifier := do
  let s ← specifier
  optionalAttributes g.rounds
  endStatement
  return s

/-- The name of an export: a word, or a quoted text (`isQuoted`). -/
structure ExportName where
  text : String
  isQuoted : Bool

def atExportName : Parser Bool := do return (← atAnyWord) || (← atQuoted)

/-- The name of an export; no half of a character may stand in it. -/
def exportName : Parser ExportName := do
  match (← advance).token with
  | .word w _ => return ⟨w, false⟩
  | .quoted s whole => require whole; return ⟨s, true⟩
  | _ => refuse

/-- One entry of a list in braces: the name in front of `as` and the name after it. -/
structure Entry where
  first : ExportName
  second : ExportName
  isType : Bool

def entryRest (first : ExportName) (isType : Bool) : Parser Entry := do
  if ← eatWord "as" then return ⟨first, ← exportName, isType⟩
  return ⟨first, first, isType⟩

/-- The rest of an entry that begins with `type as`: either word can be a name. -/
def typeAsEntry : Parser Entry := do
  if ← eatWord "as" then
    if ← atExportName then return ⟨⟨"as", false⟩, ← exportName, true⟩
    return ⟨⟨"type", false⟩, ⟨"as", false⟩, false⟩
  if ← atExportName then return ⟨⟨"type", false⟩, ← exportName, false⟩
  return ⟨⟨"as", false⟩, ⟨"as", false⟩, true⟩

/-- One entry. The word `type` in front of a name marks the entry as a type, but can be a name
itself. -/
def entry : Parser Entry := do
  if (← read).types && (← atWord "type") then
    let first ← exportName
    if ← eatWord "as" then typeAsEntry
    else if ← atExportName then entryRest (← exportName) true
    else return ⟨first, first, false⟩
  else entryRest (← exportName) false

/-- A list of entries in braces; where all of it is marked as types, no entry may be. -/
def entryList (g : Grammar) (isType : Bool) : Parser (List Entry) := do
  expectSymbol braceOpen
  let es ← commaList braceClose entry g.rounds
  require !(isType && es.any (·.isType))
  return es

/-- The import that an entry stands for; the name that it brings must be free. -/
def importClause (e : Entry) : Parser ImportClause := do
  require (!e.second.isQuoted && isFree (← read) e.second.text)
  return ⟨e.second.text, .name e.first.text⟩

def namespaceImport : Parser ImportClause := do
  expectSymbol "*"
  expectWord "as"
  return ⟨← name, .all⟩

def importBindings (g : Grammar) (isType : Bool) : Parser (List ImportClause) := do
  if ← atSymbol "*" then return [← namespaceImport]
  (← entryList g isType).mapM importClause

def importTarget (g : Grammar) : Parser Unit := do
  if (← atWord "require") && (← secondIs fun l => l.token = .symbol "(") then
    let _ ← advance
    let _ ← advance
    let _ ← quotedText
    expectSymbol ")"
  else dottedName g.rounds
  endStatement

def fromOrSignFollows : Parser Bool :=
  secondIs fun l => l.token ∈ [.word "from" false, .symbol "="]

/-- Whether the word `type` that was just read marks the whole import as types. -/
def marksTypes : Parser Bool := do
  let named ← atName
  let isName := !(← atWord "from") || (named && (← fromOrSignFollows))
  return isName && (named || (← atAnySymbol ["*", braceOpen]))

/-- Whether the word that was just read says when to load the module. -/
def marksPhase (w : String) : Parser Bool := do
  if w = "defer" then atSymbol "*"
  else if w = "source" then
    return (← atName) &&
      (!(← atWord "from") || (← secondIs fun l => l.token = .word "from" false))
  else return false

def optionalName : Parser (Option String) := do
  if ← atName then return some (← name) else return none

/-- The first name of an import, and whether the import is marked as types. -/
def importHead : Parser (Option String × Bool) := do
  match ← optionalName with
  | none => return (none, false)
  | some n =>
    if (← read).types && n = "type" && (← marksTypes) then return (← optionalName, true)
    if ← marksPhase n then return (← optionalName, false)
    return (some n, false)

def importFrom (g : Grammar) (first : Option String) (isType : Bool) : Parser Item := do
  let clauses ←
    match first with
    | none => importBindings g isType
    | some n =>
      let default : ImportClause := ⟨n, .name "default"⟩
      if ← eatSymbol "," then pure (default :: (← importBindings g isType)) else pure [default]
  expectWord "from"
  return .importFrom clauses (← fromModule g)

def importRule (g : Grammar) : Parser Item := do
  expectWord "import"
  if ← atQuoted then return .importFrom [] (← fromModule g)
  let (first, isType) ← importHead
  if first.isSome && (← read).types then
    if ← eatSymbol "=" then
      importTarget g
      return .plain
  importFrom g first isType

def exportClause (e : Entry) : ExportClause := ⟨e.first.text, e.second.text⟩

/-- Words that strict scripts keep for themselves. -/
def strictWords : List String :=
  ["await", "yield", "implements", "interface", "let", "package", "private", "protected", "public",
   "static"]

/-- Whether an entry exports something that can be declared in the script. -/
def isLocalEntry (e : Entry) : Bool :=
  !e.first.isQuoted && e.first.text ∉ reservedWords && e.first.text ∉ strictWords

/-- A list of exports, from another module or of names in the script. -/
def exportListRule (g : Grammar) (isType : Bool) : Parser Item := do
  let es ← entryList g isType
  if ← eatWord "from" then return .exportList (es.map exportClause) (some (← fromModule g))
  require (es.all isLocalEntry)
  endStatement
  return .exportList (es.map exportClause) none

def exportAllRule (g : Grammar) : Parser Item := do
  expectSymbol "*"
  let n ← if ← eatWord "as" then pure (some (← exportName).text) else pure none
  expectWord "from"
  return .exportAll n (← fromModule g)

/-- A declaration whose name may be left out, exported by default. -/
def defaultDeclared (n : Option String) : Item :=
  match n with
  | some n => .exportDefault (.declared ⟨n, .value⟩)
  | none => .exportDefault .anonymous

def exportDefaultRule (g : Grammar) : Parser Item := do
  let types := (← read).types
  if ← atWord "function" then return defaultDeclared (← functionRule g false false).1
  if ← atAsyncFunction then
    let _ ← advance
    return defaultDeclared (← functionRule g true false).1
  if ← decorators g then
    let _ ← eatWord "abstract"
    return defaultDeclared (← classRule g)
  if ← atWord "class" then return defaultDeclared (← classRule g)
  if types && (← atWord "abstract") &&
      (← secondIs fun l => !l.newline && l.token = .word "class" false) then
    let _ ← advance
    return defaultDeclared (← classRule g)
  if types && (← atWord "interface") then
    return .exportDefault (.declared (← interfaceRule g))
  let s ← g.operandIn
  endStatement
  match s with
  | .name n => return .exportDefault (.reference n)
  | _ => return .exportDefault .anonymous

/-- Exports that only scripts with types have, if there is one. -/
def typedExport (g : Grammar) : Parser (Option Item) := do
  if ← eatSymbol "=" then
    let _ ← g.operandIn
    endStatement
    return some .plain
  if (← atWord "as") && (← secondIs fun l => l.token = .word "namespace" false) then
    let _ ← advance
    let _ ← advance
    let _ ← name
    endStatement
    return some .plain
  if ← eatWord "import" then
    let (first, _) ← importHead
    require first.isSome
    expectSymbol "="
    importTarget g
    return some .plain
  if (← atWord "type") && (← secondIs fun l => l.token ∈ [.symbol braceOpen, .symbol "*"]) then
    let _ ← advance
    if ← atSymbol "*" then return some (← exportAllRule g)
    return some (← exportListRule g true)
  return none

def exportedDeclaration (g : Grammar) : Parser Item := do
  let decorated ← decorators g
  if decorated then
    let _ ← eatWord "abstract"
    require (← atWord "class")
  match ← declaration g with
  | some ds => return .exportDeclared ds
  | none => refuse

def exportRule (g : Grammar) : Parser Item := do
  expectWord "export"
  if ← eatWord "default" then exportDefaultRule g
  else if ← atSymbol "*" then exportAllRule g
  else if ← atSymbol braceOpen then exportListRule g false
  else
    let typed ← if (← read).types then typedExport g else pure none
    match typed with
    | some i => return i
    | none => exportedDeclaration g

end BarrelAlias.Script
