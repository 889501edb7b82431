import BarrelAlias.Script.Parser
import BarrelAlias.Script.Statement

/-!
What the rules of the grammar share: the forms of an expression that matter to the text around it,
and the rules that can stand inside themselves.
-/

namespace BarrelAlias.Script

/-- The form of an expression, as far as it decides what may be assigned to it. -/
inductive Shape
  | name (text : String)
  | member
  /-- An expression in brackets or with a type; `assignable` if what is inside is. -/
  | grouped (assignable : Bool)
  /-- A list or an object: `fits` if it reads as a pattern, `pending` if it reads as nothing
  else. -/
  | literal (fits pending : Bool)
  /-- An assignment with `=` that stands alone. -/
  | assignment
  | prefixed
  | value
deriving DecidableEq, Repr

namespace Shape

/-- Whether it names one place that can be assigned to. -/
def isPlace : Shape → Bool
  | name _ => true
  | member => true
  | grouped b => b
  | _ => false

def isTarget : Shape → Bool
  | literal fits _ => fits
  | s => s.isPlace

/-- Whether it can stand in a pattern, perhaps with a value to fall back on. -/
def isElement : Shape → Bool
  | assignment => true
  | s => s.isTarget

/-- Whether it is an expression only as a part of a pattern. -/
def isPending : Shape → Bool
  | literal _ pending => pending
  | _ => false

end Shape

/-- Refuses a form that makes sense only as a pattern. -/
def settled (s : Shape) : Parser Unit := require !s.isPending

/-- The rules that can stand inside themselves. -/
structure Grammar where
  /-- A bound on the number of items in any list. -/
  rounds : Nat
  /-- A statement, or where `isSingle` holds, one that is no lexical declaration. -/
  statement : (isSingle : Bool) → Parser Item
  /-- An expression without commas; `returnTypes` if a function in it may state what it returns. -/
  assignment : (returnTypes : Bool) → Parser Shape
  unary : Parser Shape
  leftSide : Parser Shape
  binding : Parser (List String)
  type : Parser Unit
  operandType : Parser Unit
  element : Parser Unit

namespace Grammar

def empty : Grammar :=
  ⟨0, fun _ => refuse, fun _ => refuse, refuse, refuse, refuse, refuse, refuse, refuse⟩

/-- An expression without commas that is no mere pattern. -/
def operand (g : Grammar) (returnTypes : Bool) : Parser Shape := do
  let s ← g.assignment returnTypes
  settled s
  return s

def initializer (g : Grammar) : Parser Unit := do
  let _ ← g.operand true

def expression (g : Grammar) : Parser Shape := do
  match ← separated "," (g.operand true) g.rounds with
  | [s] => return s
  | _ => return .value

def expressionIn (g : Grammar) : Parser Shape :=
  within (fun c => { c with allowIn := true, inDecorator := false }) g.expression

def operandIn (g : Grammar) : Parser Shape :=
  within (fun c => { c with allowIn := true, inDecorator := false }) (g.operand true)

end Grammar

end BarrelAlias.Script
