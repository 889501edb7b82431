import BarrelAlias.Path

/-!
Declarations: where one lives, what it is called there, and in which of the two spaces of names.
A declaration table gives every declaration a number, the same number for the same declaration.
-/

namespace BarrelAlias

/-- Types and values are declared apart: `interface Foo` and `const Foo` are two declarations. -/
inductive Space
  | type
  | value
deriving DecidableEq, Repr

namespace Space

def label : Space → String
  | type => "type"
  | value => "value"

def rank : Space → Nat
  | type => 0
  | value => 1

instance : Ord Space where
  compare a b := compare a.rank b.rank

end Space

/-- Where a declaration lives: in a file, or behind a specifier that leads to no file. -/
inductive Origin
  | file (path : Path)
  | package (specifier : String)
deriving DecidableEq, Repr

/-- A declaration; the name `*` stands for all of a module at once. -/
structure DeclKey where
  origin : Origin
  name : String
  space : Space
deriving DecidableEq, Repr

/-- The place of a declaration, whatever the spelling of its path. -/
inductive Place
  | file (steps : List Step)
  | package (specifier : String)
deriving DecidableEq, Repr

namespace Place

instance : Ord Place where
  compare a b :=
    match a, b with
    | file s, file t => compare s t
    | file _, package _ => .lt
    | package _, file _ => .gt
    | package s, package t => compare s t

end Place

/-- What makes two declarations the same. -/
structure Identity where
  place : Place
  name : String
  space : Space
deriving DecidableEq, Repr

namespace Identity

instance : Ord Identity where
  compare a b :=
    (compare a.place b.place).then ((compare a.name b.name).then (compare a.space b.space))

end Identity

def Origin.place : Origin → Place
  | file p => .file p.steps
  | package s => .package s

namespace DeclKey

def identity (k : DeclKey) : Identity := ⟨k.origin.place, k.name, k.space⟩

def text (k : DeclKey) : String :=
  let place :=
    match k.origin with
    | .file p => p.text
    | .package s => "'" ++ s ++ "'"
  k.space.label ++ " " ++ k.name ++ " in " ++ place

instance : Ord DeclKey where
  compare a b := compare a.identity b.identity

end DeclKey

/-- The number of a declaration in a table. Numbers of 32 bits are the same ones as long as the table
has fewer than `2 ^ 32` entries. -/
abbrev DeclId := Nat

structure DeclTable where
  keys : List DeclKey
deriving Repr

namespace DeclTable

def empty : DeclTable := ⟨[]⟩

instance : Inhabited DeclTable := ⟨empty⟩

def find? (t : DeclTable) (k : DeclKey) : Option DeclId :=
  t.keys.findIdx? (·.identity = k.identity)

/-- The number of a declaration, which is the next one if it is new. -/
def intern (t : DeclTable) (k : DeclKey) : DeclId × DeclTable :=
  match t.find? k with
  | some id => (id, t)
  | none => (t.keys.length, ⟨t.keys ++ [k]⟩)

def get? (t : DeclTable) (id : DeclId) : Option DeclKey := t.keys[id]?

end DeclTable

end BarrelAlias
