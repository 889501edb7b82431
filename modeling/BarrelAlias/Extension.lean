/-!
The file extensions of scripts, by the role they play.
-/

namespace BarrelAlias.Extension

/-- Extensions of files that can be read as a module, those with types first. -/
def scripts : List String := ["ts", "tsx", "mts", "cts", "js", "jsx", "mjs", "cjs"]

/-- Extensions that a `from` clause may leave out, so that a barrel can name the file. -/
def barrel : List String := ["ts", "tsx", "js", "jsx"]

/-- Extensions to try after a specifier that names no file, the first one that fits winning. -/
def probed : List String := ["ts", "tsx", "mts", "cts", "js", "jsx", "mjs", "cjs"]

/-- Files that stand for the directory they are in, the first one that exists winning. -/
def indexFiles : List String := probed.map ("index." ++ ·)

def skippedFolders : List String := ["node_modules", ".git"]

/-- The extensions of the sources from which a file with this extension is emitted. -/
def sourcesOf : String → List String
  | "js" => ["ts", "tsx"]
  | "jsx" => ["tsx"]
  | "mjs" => ["mts"]
  | "cjs" => ["cts"]
  | _ => []

end BarrelAlias.Extension
