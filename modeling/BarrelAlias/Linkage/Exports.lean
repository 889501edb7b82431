import BarrelAlias.Declaration
import BarrelAlias.Linkage.Resolve
import BarrelAlias.Linkage.Summary

/-!
Which declarations a file exports, and under which names. Re-exports are followed from file to file
down to the declarations. Files that re-export each other are cut where the walk comes back to a
file that it has not left yet; what is found behind such a cut is incomplete, so it is kept for
later only if the cut does not reach above the file.
-/

namespace BarrelAlias.Linkage

open Script (Imported)

abbrev ExportMap := Table String (List DeclId)

structure Loader where
  decls : DeclTable
  modules : Table (List Step) Summary
  resolved : Resolved
  exports : Table (List Step) ExportMap
  /-- Files that are never read; what is re-exported from them counts as declared there. -/
  sealedFiles : List (List Step)

namespace Loader

def empty : Loader := ⟨.empty, .empty, .empty, .empty, []⟩

def sealing (files : List Path) : Loader := { empty with sealedFiles := files.map Path.steps }

instance : Inhabited Loader := ⟨empty⟩

def filesParsed (l : Loader) : Nat := l.modules.size

def isSealed (l : Loader) (file : Path) : Bool := file.steps ∈ l.sealedFiles

end Loader

/-- Something that may fail, and in any case adds to what is known. -/
abbrev Load := ExceptT Failure (StateM Loader)

def intern (k : DeclKey) : Load DeclId := do
  let l ← get
  let (id, decls) := l.decls.intern k
  set { l with decls := decls }
  return id

def internIn (file : Path) (name : String) (space : Space) : Load DeclId :=
  intern ⟨.file file, name, space⟩

def follow (t : FileTree) (file : Path) (specifier : String) : Load (Option Path) := do
  let l ← get
  let (answer, resolved) := resolveOnce t l.resolved file specifier
  set { l with resolved := resolved }
  return answer

def readModule (t : FileTree) (file : Path) : Except Failure Summary :=
  match t.read file with
  | .ok text => summarize file text
  | .error _ => .error (.unreadable file)

/-- The summary of a file, which is read at most once. -/
def moduleOf (t : FileTree) (file : Path) : Load Summary := do
  let l ← get
  match l.modules.find? file.steps with
  | some s => return s
  | none =>
    match readModule t file with
    | .ok s =>
      set { l with modules := l.modules.insert file.steps s }
      return s
    | .error f => throw f

/-- Reads files ahead of their use. The failure is that of the first file in the list that cannot be
read; reading them side by side may report any other that fails instead. -/
def preload (t : FileTree) (files : List Path) : Load Unit := files.forM fun f => do
  let _ ← moduleOf t f

/-- The files that the walk is in, the last one first. -/
abbrev Trail := List (List Step)

def depthIn? (file : List Step) : Trail → Option Nat
  | [] => none
  | f :: fs => if f = file then some fs.length else depthIn? file fs

/-- The depth of the topmost file where the walk was cut, if it was. -/
abbrev Low := Option Nat

def Low.min : Low → Low → Low
  | none, b => b
  | a, none => a
  | some a, some b => some (Nat.min a b)

/-- Whether no cut reaches above depth `depth`. -/
def Low.isWithin (low : Low) (depth : Nat) : Bool :=
  match low with
  | none => true
  | some n => depth ≤ n

/-- What a walk found, and how far up it was cut. -/
structure Found (α : Type) where
  value : α
  low : Low

def addUnique {α : Type} [DecidableEq α] (ids new : List α) : List α :=
  new.foldl (fun ids id => if id ∈ ids then ids else ids ++ [id]) ids

/-- Adds declarations under a name, which is then there even if none is added. -/
def addUnder {α : Type} [DecidableEq α] (m : Table String (List α)) (name : String)
    (ids : List α) : Table String (List α) :=
  m.insert name (addUnique ((m.find? name).getD []) ids)

/-- The name of what is taken from a module; a star stands for all of it. -/
def importedName : Imported → String
  | .name n => n
  | .all => "*"

abbrev Enter := Path → Load (Found ExportMap)

def importedDecls (t : FileTree) (enter : Enter) (file : Path) (source : String)
    (imported : Imported) : Load (Found (List DeclId)) := do
  let name := importedName imported
  match ← follow t file source with
  | none => return ⟨[← intern ⟨.package source, name, .value⟩], none⟩
  | some target =>
    if imported = .all || (← get).isSealed target then
      return ⟨[← internIn target name .value], none⟩
    else
      let found ← enter target
      return ⟨(found.value.find? name).getD [], found.low⟩

/-- The spaces in which a module declares a name, types first. A name that it does not declare
counts as a value. -/
def spacesOf (s : Summary) (name : String) : List Space :=
  let has (space : Space) : Bool := s.locals.any fun d => d.name = name ∧ d.space = space
  match has .type, has .value with
  | true, true => [.type, .value]
  | true, false => [.type]
  | _, _ => [.value]

/-- The declarations that a name of a module stands for: those that it imports under that name, else
its own. -/
def namedDecls (t : FileTree) (enter : Enter) (file : Path) (s : Summary) (name : String) :
    Load (Found (List DeclId)) := do
  match s.imports.find? name with
  | some b => importedDecls t enter file b.source b.imported
  | none => return ⟨← (spacesOf s name).mapM (internIn file name), none⟩

/-- Adds what an entry exports explicitly. A re-export of nothing is no export. -/
def addEntry (t : FileTree) (enter : Enter) (file : Path) (s : Summary) (acc : Found ExportMap)
    (e : ExportEntry) : Load (Found ExportMap) := do
  match e with
  | .named exported name =>
    let ids ← namedDecls t enter file s name
    return ⟨addUnder acc.value exported ids.value, acc.low.min ids.low⟩
  | .default (some name) =>
    let ids ← namedDecls t enter file s name
    return ⟨addUnder acc.value "default" ids.value, acc.low.min ids.low⟩
  | .default none =>
    let id ← internIn file "default" .value
    return ⟨addUnder acc.value "default" [id], acc.low⟩
  | .reexport exported source imported =>
    let ids ← importedDecls t enter file source imported
    let m := if ids.value.isEmpty then acc.value else addUnder acc.value exported ids.value
    return ⟨m, acc.low.min ids.low⟩
  | .star _ => return acc

/-- Adds the names of another file that are not there yet; a default export is not passed on. -/
def addStar {α : Type} (m new : Table String (List α)) : Table String (List α) :=
  new.entries.foldl (fun m (name, ids) =>
    if name = "default" ∨ m.has name then m else m.insert name ids) m

def followStar (t : FileTree) (enter : Enter) (file : Path) (acc : Found ExportMap)
    (source : String) : Load (Found ExportMap) := do
  match ← follow t file source with
  | none => return acc
  | some target =>
    if (← get).isSealed target then return acc
    else
      let found ← enter target
      return ⟨addStar acc.value found.value, acc.low.min found.low⟩

def starSources (es : List ExportEntry) : List String :=
  es.filterMap fun
    | .star source => some source
    | _ => none

/-- All that a module exports: its explicit exports, then what it passes on. -/
def collect (t : FileTree) (enter : Enter) (file : Path) (s : Summary) :
    Load (Found ExportMap) := do
  let acc ← s.exports.foldlM (addEntry t enter file s) ⟨.empty, none⟩
  let acc ← (starSources s.exports).foldlM (followStar t enter file) acc
  return ⟨acc.value.keep fun _ ids => !ids.isEmpty, acc.low⟩

/-- Walks into a file, coming from the files of the trail. -/
def walkExports (t : FileTree) : Nat → Trail → Path → Load (Found ExportMap)
  | 0, _, _ => return ⟨.empty, none⟩
  | fuel + 1, trail, file => do
    match (← get).exports.find? file.steps with
    | some known => return ⟨known, none⟩
    | none =>
      match depthIn? file.steps trail with
      | some depth => return ⟨.empty, some depth⟩
      | none =>
        let s ← moduleOf t file
        let found ← collect t (walkExports t fuel (file.steps :: trail)) file s
        if found.low.isWithin trail.length then
          modify fun l => { l with exports := l.exports.insert file.steps found.value }
        return found

/-- A walk never holds more files than there are, those that are only remembered included. -/
def walkFuel (t : FileTree) (l : Loader) : Nat := t.nodes.size + l.modules.size + 2

def exportsOf (t : FileTree) (file : Path) : Load ExportMap := do
  let found ← walkExports t (walkFuel t (← get)) [] file
  return found.value

end BarrelAlias.Linkage
