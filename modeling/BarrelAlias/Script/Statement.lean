import BarrelAlias.Declaration
import BarrelAlias.Text.Bytes

/-!
The statements of a script, as far as they say what it imports, declares and exports.
-/

namespace BarrelAlias.Script

structure LocalDecl where
  name : String
  space : Space
deriving DecidableEq, Repr

/-- What is taken from another module: one of its exports, or all of it at once. -/
inductive Imported
  | name (text : String)
  | all
deriving DecidableEq, Repr

structure ImportClause where
  name : String
  imported : Imported
deriving DecidableEq, Repr

/-- A name in an export list, and the name it is exported under. -/
structure ExportClause where
  name : String
  exported : String
deriving DecidableEq, Repr

/-- The quoted text that names another module, and where it stands, quotes included. -/
structure Specifier where
  value : String
  span : Text.Span
deriving DecidableEq, Repr

inductive DefaultExport
  | declared (decl : LocalDecl)
  | reference (name : String)
  | anonymous
deriving DecidableEq, Repr

inductive Item
  | importFrom (clauses : List ImportClause) (source : Specifier)
  | exportDeclared (decls : List LocalDecl)
  | exportList (clauses : List ExportClause) (source : Option Specifier)
  | exportDefault (what : DefaultExport)
  /-- All exports of a module, or the module itself under a name. -/
  | exportAll (name : Option String) (source : Specifier)
  | declared (decls : List LocalDecl)
  | plain
deriving DecidableEq, Repr

structure Statement where
  item : Item
  span : Text.Span
deriving DecidableEq, Repr

/-- The item with another specifier, if it has one. -/
def Item.mapSource (f : Specifier → Specifier) : Item → Item
  | importFrom clauses source => importFrom clauses (f source)
  | exportList clauses source => exportList clauses (source.map f)
  | exportAll name source => exportAll name (f source)
  | i => i

/-- The statement in a text with `n` more bytes in front. -/
def Statement.shift (n : Nat) (st : Statement) : Statement where
  item := st.item.mapSource fun sp => { sp with span := sp.span.shift n }
  span := st.span.shift n

def Item.exportedNames : Item → List String
  | exportDeclared decls => decls.map (·.name)
  | exportList clauses _ => clauses.map (·.exported)
  | exportDefault _ => ["default"]
  | exportAll (some n) _ => [n]
  | _ => []

end BarrelAlias.Script
