import BarrelAlias.Script.Binding
import BarrelAlias.Script.Control

/-!
Whole scripts. The rules that can stand inside themselves are tied together level by level, each
level using the one below it; a statement cannot nest them deeper than the text from there on is long,
so that there are always levels enough.
-/

namespace BarrelAlias.Script

/-- The rules with `depth` levels below them. -/
def Grammar.ofDepth (rounds : Nat) : Nat → Grammar
  | 0 => .empty
  | depth + 1 =>
    { rounds := rounds
      statement := fun isSingle ctx cur => statementRule (ofDepth rounds depth) isSingle ctx cur
      assignment := fun returnTypes ctx cur =>
        assignmentRule (ofDepth rounds depth) returnTypes ctx cur
      unary := fun ctx cur => unaryRule (ofDepth rounds depth) ctx cur
      leftSide := fun ctx cur => leftSideRule (ofDepth rounds depth) ctx cur
      binding := fun ctx cur => bindingRule (ofDepth rounds depth) ctx cur
      type := fun ctx cur => typeRule (ofDepth rounds depth) ctx cur
      operandType := fun ctx cur => operandTypeRule (ofDepth rounds depth) ctx cur
      element := fun ctx cur => elementRule (ofDepth rounds depth) ctx cur }

/-- The rules for a text of this length. -/
def Grammar.forLength (length : Nat) : Grammar := .ofDepth (length + 2) (8 * length + 64)

def placedStatement (g : Grammar) : Parser Statement := do
  let start ← nextStart
  let item ← g.statement false
  return ⟨item, ⟨start, ← lastStop⟩⟩

/-- The statement ahead, unless the text ends. -/
def nextStatement (g : Grammar) : Parser (Option Statement) := do
  if ← atToken .ending then return none
  return some (← placedStatement g)

/-- All statements up to the end of a text, of which there are fewer than `fuel`. Each is read as if the
text began with it, and takes something; what it is does not depend on what stands before it. -/
def statements (ctx : Context) : Nat → Bool → List Char → Option (List Statement)
  | 0, _, _ => none
  | fuel + 1, newline, cs => do
    let (st?, next) ← nextStatement (.forLength cs.length) ctx (.at ctx.marks 0 newline cs)
    match st? with
    | none => return []
    | some st =>
      if next.val.rest.length < cs.length then
        let sts ← statements ctx fuel false next.val.rest
        return st :: sts.map (·.shift next.val.stop)
      else none

section Statements

variable {ctx : Context} {fuel : Nat} {newline : Bool} {cs : List Char} {sts : List Statement}

/-- The statements of a text are the one that it begins with and those of what follows. -/
theorem statements_cases (h : statements ctx (fuel + 1) newline cs = some sts) :
    ∃ st? next, nextStatement (.forLength cs.length) ctx (.at ctx.marks 0 newline cs) =
        some (st?, next) ∧
      match st? with
      | none => sts = []
      | some st => next.val.rest.length < cs.length ∧ ∃ sts',
          statements ctx fuel false next.val.rest = some sts' ∧
            sts = st :: sts'.map (·.shift next.val.stop) := by
  obtain ⟨⟨st?, next⟩, hrun, h⟩ := Option.bind_eq_some_iff.mp h
  refine ⟨st?, next, hrun, ?_⟩
  cases st? with
  | none => exact (Option.some.inj h).symm
  | some st =>
    obtain ⟨hless, h⟩ := Option.ite_none_right_eq_some.mp h
    obtain ⟨sts', hsts, h⟩ := Option.bind_eq_some_iff.mp h
    exact ⟨hless, sts', hsts, (Option.some.inj h).symm⟩

theorem statements_of_next {st : Statement} {next : (Cursor.at ctx.marks 0 newline cs).Onward}
    (hrun : nextStatement (.forLength cs.length) ctx (.at ctx.marks 0 newline cs) =
      some (some st, next)) (hless : next.val.rest.length < cs.length)
    (hsts : statements ctx fuel false next.val.rest = some sts) :
    statements ctx (fuel + 1) newline cs = some (st :: sts.map (·.shift next.val.stop)) := by
  rw [statements, hrun]
  simp [hless, hsts]

end Statements

/-- Where a script begins, after the line that names an interpreter, and the text from there. -/
def skipInterpreter (cs : List Char) : Nat × List Char :=
  match cs with
  | '#' :: '!' :: rest =>
    let line := rest.takeWhile (!isLineBreak ·)
    (2 + Text.byteLength line, rest.drop line.length)
  | cs => (0, cs)

def exportsOnce (ss : List Statement) : Bool :=
  let ns := ss.flatMap (·.item.exportedNames)
  ns.eraseDups.length = ns.length

/-- The statements of a script, if its text is one in its dialect. Where there are types one name
may be exported twice. -/
def parse? (d : Dialect) (cs : List Char) : Option (List Statement) := do
  let (start, cs) := skipInterpreter cs
  let sts ← statements (.ofDialect d) (cs.length + 1) true cs
  if d.types || exportsOnce sts then some (sts.map (·.shift start)) else none

end BarrelAlias.Script
