import BarrelAlias.Barrel.Name
import BarrelAlias.Declaration
import BarrelAlias.Quote
import BarrelAlias.Table
import BarrelAlias.Warning

/-!
The registry of a barrel: which declarations stand under which name, and from which origin each
comes. Two tables see the same bindings, one by name and one by declaration. A name under which two
origins bring different declarations is overloaded, and each of its origins then publishes it under
a qualified name of its own.
-/

namespace BarrelAlias.Barrel

/-- One export in the line of an origin: the name in its file and the name it is registered
under. -/
structure Clause where
  exported : String
  name : String
deriving DecidableEq, Repr

inductive Registration
  /-- The name is new. -/
  | fresh
  /-- The name is new, and the declaration already stands under these. -/
  | also (names : List String)
  /-- The declaration already stands under this name. -/
  | duplicate (first : String)
  /-- The origin already brings another declaration under this name. -/
  | sameFile
  /-- Only other origins bring a declaration under this name. -/
  | conflict (previous : List String)
deriving DecidableEq, Repr

structure Registry where
  /-- For each name its declarations with the origins that brought them. -/
  names : Table String (List (DeclId × String))
  /-- For each declaration the names it stands under with the origins that brought it. -/
  decls : Table DeclId (List (String × String))
  /-- The names that are published qualified. -/
  overloaded : List String
  /-- For each origin its exports. -/
  origins : Table String (List Clause)

/-- The items without those that stood before, in their order. -/
def firstOccurrences {α : Type} [DecidableEq α] (xs : List α) : List α :=
  xs.foldl (fun seen x => if x ∈ seen then seen else seen ++ [x]) []

namespace Registry

def empty : Registry := ⟨.empty, .empty, [], .empty⟩

instance : Inhabited Registry := ⟨empty⟩

def bindings (r : Registry) (name : String) : List (DeclId × String) := (r.names.find? name).getD []

def namesOf (r : Registry) (decl : DeclId) : List (String × String) :=
  (r.decls.find? decl).getD []

def clauses (r : Registry) (origin : String) : List Clause := (r.origins.find? origin).getD []

/-- Enters a declaration under a name, on both sides and in the line of its origin. -/
def bind (r : Registry) (name exported : String) (decl : DeclId) (origin : String) : Registry where
  names := r.names.insert name (r.bindings name ++ [(decl, origin)])
  decls := r.decls.insert decl (r.namesOf decl ++ [(name, origin)])
  overloaded := r.overloaded
  origins := r.origins.insert origin (r.clauses origin ++ [⟨exported, name⟩])

/-- Registers `decl`, which `origin` exports as `exported`, under `name`. -/
def register (r : Registry) (name exported : String) (decl : DeclId) (origin : String) :
    Registration × Registry :=
  match r.names.find? name with
  | none =>
    let also := (r.namesOf decl).map (·.1)
    (if also.isEmpty then .fresh else .also also, r.bind name exported decl origin)
  | some known =>
    match known.find? (·.1 = decl) with
    | some (_, first) => (.duplicate first, r)
    | none =>
      let bound := r.bind name exported decl origin
      if known.any (·.2 = origin) then (.sameFile, bound)
      else
        (.conflict (firstOccurrences (known.map (·.2))),
          { bound with overloaded := if name ∈ r.overloaded then r.overloaded
                                     else r.overloaded ++ [name] })

def isOverloaded (r : Registry) (name : String) : Bool := name ∈ r.overloaded

/-- The origins of a name, each once. -/
def originsOf (r : Registry) (name : String) : List String :=
  firstOccurrences ((r.bindings name).map (·.2))

end Registry

/-- An origin in search of a qualified name: the one it holds and the wider ones it may turn to. -/
structure Choice where
  origin : String
  pick : String
  wider : List String
deriving DecidableEq, Repr

namespace Choice

def first (name origin : String) : Choice :=
  match candidates origin name with
  | [] => ⟨origin, name, []⟩
  | c :: cs => ⟨origin, c, cs⟩

/-- Whether another origin holds the same name or it is taken. -/
def clashes (taken : List String) (cs : List Choice) (c : Choice) : Bool :=
  c.pick ∈ taken || (cs.map (·.pick)).count c.pick > 1

def widen (c : Choice) : Choice :=
  match c.wider with
  | [] => c
  | a :: as => { c with pick := a, wider := as }

/-- All origins that clash turn to their next name at once. -/
def step (taken : List String) (cs : List Choice) : List Choice :=
  cs.map fun c => if clashes taken cs c then c.widen else c

/-- The number of wider names that are left. -/
def slack (cs : List Choice) : Nat := cs.foldr (fun c n => c.wider.length + n) 0

/-- Steps until nothing changes, at most `fuel` times. -/
def settle (taken : List String) : Nat → List Choice → List Choice
  | 0, cs => cs
  | fuel + 1, cs =>
    let next := step taken cs
    if next = cs then cs else settle taken fuel next

end Choice

structure Naming where
  /-- Every name that is spoken for. -/
  taken : List String
  /-- The qualified name for an origin and a name. -/
  aliases : Table (String × String) String
  warnings : List Warning

namespace Naming

/-- The least number from 2 on with which `name` is not taken. -/
def freeNumber (taken : List String) (name : String) : Nat :=
  ((List.range (taken.length + 1)).find? fun n => name ++ Nat.repr (n + 2) ∉ taken).getD 0 + 2

/-- Gives an origin the name it has settled on, numbered if that name is taken. -/
def assign (name : String) (n : Naming) (c : Choice) : Naming :=
  if c.pick ∈ n.taken then
    let given := c.pick ++ Nat.repr (freeNumber n.taken c.pick)
    { taken := n.taken ++ [given]
      aliases := n.aliases.insert (c.origin, name) given
      warnings := n.warnings ++ [.numbered name c.origin given] }
  else
    { n with taken := n.taken ++ [c.pick]
             aliases := n.aliases.insert (c.origin, name) c.pick }

end Naming

namespace Registry

def settled (r : Registry) (taken : List String) (name : String) : List Choice :=
  let cs := (r.originsOf name).map (Choice.first name)
  Choice.settle taken (Choice.slack cs) cs

def qualifyName (r : Registry) (n : Naming) (name : String) : Naming :=
  (r.settled n.taken name).foldl (Naming.assign name) n

/-- The names that are published as they are. -/
def plainNames (r : Registry) : List String := r.names.keys.filter (!r.isOverloaded ·)

/-- The overloaded names, in the order in which they were first seen. -/
def overloadedNames (r : Registry) : List String := r.names.keys.filter r.isOverloaded

def qualify (r : Registry) : Naming :=
  r.overloadedNames.foldl r.qualifyName ⟨r.plainNames, .empty, []⟩

def published (n : Naming) (origin name : String) : String :=
  (n.aliases.find? (origin, name)).getD name

end Registry

def clauseText (exported published : String) : String :=
  if exported = published then published else exported ++ " as " ++ published

def lineText (quote : QuoteStyle) (origin : String) (clauses : List String) : String :=
  "export \x7b " ++ ", ".intercalate clauses ++ " \x7d from " ++ quote.quote origin ++ ";"

namespace Registry

/-- The clauses in the line of an origin, in order and each once. -/
def lineClauses (n : Naming) (origin : String) (cs : List Clause) : List String :=
  firstOccurrences
    ((cs.map fun c => clauseText c.exported (published n origin c.name)).mergeSort
      fun a b => (compare a b).isLE)

def render (r : Registry) (quote : QuoteStyle) : List String :=
  let n := r.qualify
  (r.origins.entries.filter (!·.2.isEmpty)).map fun (origin, cs) =>
    lineText quote origin (lineClauses n origin cs)

def renderWarnings (r : Registry) : List Warning := r.qualify.warnings

end Registry

end BarrelAlias.Barrel
