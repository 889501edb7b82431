import BarrelAlias.Extension
import BarrelAlias.Path
import BarrelAlias.Text.Casing
import BarrelAlias.Text.Letter

/-!
Names in a barrel: the specifier under which a file is named, the name that a default export gets,
and the names that tell apart exports of one name from several files.
-/

namespace BarrelAlias.Barrel

/-- The text without the first of these extensions that it ends with. -/
def withoutExtension (exts : List String) (s : String) : String :=
  (exts.findSome? fun ext => Text.beforeTail? ("." ++ ext) s).getD s

/-- The specifier of `file` in a barrel in `outDir`: the way to the file without its extension, and
to its directory if it is an index file. -/
def specifierOf (outDir file : Path) : String :=
  let way := ((file.relativeTo? outDir).getD file).slashed
  let way := withoutExtension Extension.barrel way
  let way := if Text.beginsWith "../" way || Text.beginsWith "/" way then way else "./" ++ way
  (Text.beforeTail? "/index" way).getD way

def isNameChar (c : Char) : Bool := Text.isLetterOrNumber c || c == '_' || c == '$'

/-- The words of a text with a capital at the start of all but the first; an underscore keeps a
digit from standing first. -/
def identifierOf (s : String) : String :=
  let pieces := ((s.toList.splitOnP (!isNameChar ·)).filter (· ≠ [])).map String.ofList
  let joined :=
    match pieces with
    | [] => ""
    | p :: ps => p ++ String.join (ps.map Text.capitalizeFirst)
  match joined.toList with
  | c :: _ => if c.isDigit then "_" ++ joined else joined
  | [] => joined

/-- The name of the default export of a file: the name of its directory for an index file, else its
own. -/
def defaultName (file : Path) : String :=
  let whole := file.fileName?.getD ""
  let stem := withoutExtension Extension.barrel whole
  if stem = "index" ∧ stem ≠ whole then
    identifierOf ((file.parent?.bind Path.fileName?).getD stem)
  else identifierOf stem

/-- The segments of a specifier that say where it leads. -/
def segments (specifier : String) : List String :=
  (Text.splitAt '/' specifier).filter fun s => s ≠ "" && s ≠ "." && s ≠ ".."

/-- The segments without those at the end that merely repeat `name`. -/
def tellingSegments (specifier name : String) : List String :=
  ((segments specifier).reverse.dropWhile fun s => Text.lower s = Text.lower name).reverse

def qualified (segs : List String) (name : String) (taken : Nat) : String :=
  identifierOf ("-".intercalate (segs.drop (segs.length - taken))) ++ Text.capitalizeFirst name

/-- The qualified names that `name` from `specifier` may get, the shortest first. A specifier with
no telling segment offers the bare name. -/
def candidates (specifier name : String) : List String :=
  match tellingSegments specifier name with
  | [] => [name]
  | segs => (List.range segs.length).map fun i => qualified segs name (i + 1)

end BarrelAlias.Barrel
