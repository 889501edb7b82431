import BarrelAlias.Text.Basic

/-!
Paths with `/` between their parts. A path keeps its spelling, so that it prints as it was written;
two paths are the same when their steps are, so that `/p/./a` and `/p/a` are one path with two
spellings. The order of paths is the order of their steps.
-/

namespace BarrelAlias

/-- The parts of a path as they are written, and whether a `/` stands before them. -/
structure Path where
  rooted : Bool
  parts : List String
deriving DecidableEq, Repr, Inhabited

/-- One step that a path takes. The constructors stand in the order of steps. -/
inductive Step
  | root
  | here
  | up
  | name (text : String)
deriving DecidableEq, Repr

namespace Step

def rank : Step → Nat
  | root => 0
  | here => 1
  | up => 2
  | name _ => 3

def text : Step → String
  | root => "/"
  | here => "."
  | up => ".."
  | name t => t

instance : Ord Step where
  compare a b :=
    match a, b with
    | name s, name t => compare s t
    | _, _ => compare a.rank b.rank

end Step

namespace Path

def ofText (s : String) : Path :=
  match s.toList with
  | [] => ⟨false, []⟩
  | ['/'] => ⟨true, []⟩
  | '/' :: cs => ⟨true, (cs.splitOn '/').map String.ofList⟩
  | cs => ⟨false, (cs.splitOn '/').map String.ofList⟩

def text (p : Path) : String := (if p.rooted then "/" else "") ++ "/".intercalate p.parts

/-- The spelling with `/` for every backslash, as a module specifier has it. -/
def slashed (p : Path) : String := Text.replaceChar '\\' '/' p.text

def top : Path := ⟨true, []⟩

def empty : Path := ⟨false, []⟩

/-- Whether a part is a step of its own: an empty one never is, and a dot is only at the start of a
relative path, where `leading` holds. -/
def counts (leading : Bool) (part : String) : Bool := part ≠ "" && (part ≠ "." || leading)

def stepOf (part : String) : Step :=
  if part = "." then .here else if part = ".." then .up else .name part

def stepsOf : Bool → List String → List Step
  | _, [] => []
  | leading, p :: ps =>
    if counts leading p then stepOf p :: stepsOf false ps else stepsOf false ps

def steps (p : Path) : List Step :=
  if p.rooted then .root :: stepsOf false p.parts else stepsOf true p.parts

/-- Whether two spellings are of one path. -/
def same (p q : Path) : Bool := p.steps == q.steps

instance : Ord Path where
  compare p q := compare p.steps q.steps

/-- The parts up to the last one that is a step. -/
def trimEnd : Bool → List String → List String
  | _, [] => []
  | leading, p :: ps =>
    match trimEnd false ps with
    | [] => if counts leading p then [p] else []
    | q :: qs => p :: q :: qs

/-- The path without parts at its end that are no steps. -/
def trimmed (p : Path) : Path := { p with parts := trimEnd (!p.rooted) p.parts }

/-- The path one step shorter; the root and the empty path have none. -/
def parent? (p : Path) : Option Path :=
  match p.trimmed.parts with
  | [] => none
  | ps => some ({ p with parts := ps.dropLast } : Path).trimmed

/-- The name that the path ends with, if its last step is a name. -/
def fileName? (p : Path) : Option String :=
  match p.steps.getLast? with
  | some (.name n) => some n
  | _ => none

def splitAtDot (name : String) : Option (String × String) :=
  match name.toList.reverse.splitOn '.' with
  | tail :: d :: ds =>
    some (String.ofList (['.'].intercalate (d :: ds)).reverse, String.ofList tail.reverse)
  | _ => none

/-- The part of a file name before its extension, and the extension. A dot at the start of a name
opens no extension. -/
def stemAndExtension (name : String) : String × Option String :=
  match splitAtDot name with
  | some (stem, ext) => if stem = "" then (name, none) else (stem, some ext)
  | none => (name, none)

def extension? (p : Path) : Option String := p.fileName?.bind fun n => (stemAndExtension n).2

/-- `rel` as seen from `base`; an absolute path stands for itself. -/
def join (base rel : Path) : Path :=
  if rel.rooted then rel
  else if base.parts.isEmpty then { base with parts := rel.parts }
  else
    let front := if base.parts.getLast? = some "" then base.parts.dropLast else base.parts
    { base with parts := front ++ (if rel.parts.isEmpty then [""] else rel.parts) }

/-- The path with its file name replaced, or with a name added to it if it has none. -/
def withFileName (p : Path) (name : String) : Path :=
  if p.fileName?.isSome then (p.parent?.getD p).join (ofText name) else p.join (ofText name)

def withExtension (p : Path) (ext : String) : Path :=
  match p.fileName? with
  | none => p
  | some n =>
    { p with parts := p.trimmed.parts.dropLast ++ [(stemAndExtension n).1 ++ "." ++ ext] }

/-- The path that takes exactly these steps. -/
def ofSteps : List Step → Path
  | .root :: ss => ⟨true, ss.map Step.text⟩
  | ss => ⟨false, ss.map Step.text⟩

/-- Takes one more step after the steps taken so far, the last of which stands first; going up
undoes a name and stops at the root. -/
def cleanStep (taken : List Step) (s : Step) : List Step :=
  match s with
  | .here => taken
  | .up =>
    match taken with
    | .root :: _ => taken
    | .name _ :: rest => rest
    | _ => .up :: taken
  | s => s :: taken

/-- The shortest path that leads to the same place, as far as the spelling tells. -/
def clean (p : Path) : Path :=
  match (p.steps.foldl cleanStep []).reverse with
  | [] => ⟨false, ["."]⟩
  | ss => ofSteps ss

/-- What is left of two lists after their longest common beginning. -/
def withoutCommon {α : Type} [DecidableEq α] : List α → List α → List α × List α
  | a :: as, b :: bs => if a = b then withoutCommon as bs else (a :: as, b :: bs)
  | as, bs => (as, bs)

/-- The parts that steps below a base add to a relative path. -/
def relativeParts (ss : List Step) : List String :=
  ss.filterMap fun
    | .name n => some n
    | .up => some ".."
    | _ => none

/-- The path from `base` to `target`, if both start at the same step. -/
def relativeTo? (target base : Path) : Option Path :=
  if target.steps.head? = base.steps.head? then
    let (down, back) := withoutCommon target.steps base.steps
    match back.map (fun _ => "..") ++ relativeParts down with
    | [] => some ⟨false, ["."]⟩
    | parts => some ⟨false, parts⟩
  else none

end Path

end BarrelAlias
