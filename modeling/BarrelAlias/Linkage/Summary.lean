import BarrelAlias.Failure
import BarrelAlias.Script.Program
import BarrelAlias.Table

/-!
What a module declares, imports and exports, and where it names other modules. Both views are read
off the statements of its script.
-/

namespace BarrelAlias.Linkage

open Script (Imported LocalDecl Statement Item Specifier)

structure ImportBinding where
  source : String
  imported : Imported
deriving DecidableEq, Repr

inductive ExportEntry
  /-- A name of the module. -/
  | named (exported name : String)
  /-- The default export, which may be a name of the module. -/
  | default (name : Option String)
  | reexport (exported source : String) (imported : Imported)
  | star (source : String)
deriving DecidableEq, Repr

structure Summary where
  locals : List LocalDecl
  imports : Table String ImportBinding
  exports : List ExportEntry

namespace Summary

def empty : Summary := ⟨[], .empty, []⟩

end Summary

/-- What a statement adds to a summary. A name that is imported twice comes from its last import. -/
def Summary.add (s : Summary) : Item → Summary
  | .importFrom clauses source =>
    { s with imports :=
        clauses.foldl (fun t c => t.insert c.name ⟨source.value, c.imported⟩) s.imports }
  | .exportDeclared ds =>
    { s with locals := s.locals ++ ds
             exports := s.exports ++ ds.map fun d => .named d.name d.name }
  | .exportList clauses none =>
    { s with exports := s.exports ++ clauses.map fun c => .named c.exported c.name }
  | .exportList clauses (some source) =>
    { s with exports :=
        s.exports ++ clauses.map fun c => .reexport c.exported source.value (.name c.name) }
  | .exportDefault (.declared d) =>
    { s with locals := s.locals ++ [d], exports := s.exports ++ [.default (some d.name)] }
  | .exportDefault (.reference n) => { s with exports := s.exports ++ [.default (some n)] }
  | .exportDefault .anonymous => { s with exports := s.exports ++ [.default none] }
  | .exportAll (some n) source => { s with exports := s.exports ++ [.reexport n source.value .all] }
  | .exportAll none source => { s with exports := s.exports ++ [.star source.value] }
  | .declared ds => { s with locals := s.locals ++ ds }
  | .plain => s

def Summary.ofStatements (ss : List Statement) : Summary :=
  ss.foldl (fun s st => s.add st.item) .empty

/-- A place where a statement names another module. -/
structure Site where
  value : String
  /-- The quoted text with its quotes. -/
  quoted : Text.Span
  statement : Text.Span
deriving DecidableEq, Repr

def specifierOf? : Item → Option Specifier
  | .importFrom _ source => some source
  | .exportList _ source => source
  | .exportAll _ source => some source
  | _ => none

/-- The places where statements name other modules, in their order. -/
def sitesOf (ss : List Statement) : List Site :=
  ss.filterMap fun st =>
    (specifierOf? st.item).map fun sp => ⟨sp.value, sp.span, st.span⟩

def statementsOf (file : Path) (text : String) : Except Failure (List Statement) :=
  match Script.parse? (.ofPath file) text.toList with
  | some ss => .ok ss
  | none => .error (.unparsable file)

def summarize (file : Path) (text : String) : Except Failure Summary :=
  (statementsOf file text).map .ofStatements

def sites (file : Path) (text : String) : Except Failure (List Site) :=
  (statementsOf file text).map sitesOf

end BarrelAlias.Linkage
