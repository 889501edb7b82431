import BarrelAlias.Path

/-!
What can go wrong, by cause, and the words for it.
-/

namespace BarrelAlias

inductive FileFault
  | missing
  | notFolder
  | isFolder
  | notText
deriving DecidableEq, Repr

namespace FileFault

def message : FileFault → String
  | missing => "No such file or directory (os error 2)"
  | notFolder => "Not a directory (os error 20)"
  | isFolder => "Is a directory (os error 21)"
  | notText => "stream did not contain valid UTF-8"

end FileFault

inductive GlobFault
  /-- More than two stars in a row. -/
  | wildcards
  /-- Two stars that do not stand alone between slashes. -/
  | recursive
  /-- A bracket that opens no class of characters. -/
  | range
deriving DecidableEq, Repr

namespace GlobFault

def message : GlobFault → String
  | wildcards => "wildcards are either regular `*` or recursive `**`"
  | recursive => "recursive wildcards must form a single path component"
  | range => "invalid range pattern"

end GlobFault

inductive ConfigOption
  | baseUrl
  | paths
deriving DecidableEq, Repr

def ConfigOption.label : ConfigOption → String
  | baseUrl => "baseUrl"
  | paths => "paths"

inductive IgnoreFault
  /-- A range of characters from a later to an earlier one. -/
  | range (first last : Char)
  /-- A brace that closes no group. -/
  | unopened
  /-- A brace that opens a group that does not end. -/
  | unclosed
  | dangling
deriving DecidableEq, Repr

def IgnoreFault.message : IgnoreFault → String
  | range first last =>
    "invalid range; '" ++ String.singleton first ++ "' > '" ++ String.singleton last ++ "'"
  | unopened =>
    "unopened alternate group; missing '\x7b' (maybe escape '\x7d' with '[\x7d]'?)"
  | unclosed =>
    "unclosed alternate group; missing '\x7d' (maybe escape '\x7b' with '[\x7b]'?)"
  | dangling => "dangling '\\'"

structure LineFault where
  file : Path
  line : Nat
  pattern : String
  fault : IgnoreFault
deriving DecidableEq, Repr

def LineFault.message (f : LineFault) : String :=
  f.file.text ++ ": line " ++ Nat.repr f.line ++ ": error parsing glob '" ++ f.pattern ++ "': "
    ++ f.fault.message

inductive Failure
  | unparsable (file : Path)
  | configUnreadable (config : Path) (fault : FileFault)
  /-- The configuration is not JSON of the right shape. -/
  | configMalformed (config : Path)
  | targetsMalformed (config : Path) (pattern : String)
  | optionMissing (config : Path) (option : ConfigOption)
  | badGlob (pattern : String) (fault : GlobFault)
  | unreadable (file : Path)
  | noSources (output : Path)
  | outputUnnamed (out : Path)
  | outputFolderMissing (folder : Path)
  | unnamed (path : Path)
  | notWritten (staged : Path)
  | notReplaced (path : Path)
  | noCurrentFolder
  /-- A directory to be walked cannot be read. -/
  | unwalkable (folder : Path) (fault : FileFault)
  /-- Lines of ignore files above the directory to be walked are no patterns. -/
  | badIgnoreLines (faults : List LineFault)
deriving DecidableEq, Repr

namespace Failure

def message : Failure → String
  | unparsable file => "failed to parse " ++ file.text
  | configUnreadable config fault =>
    "failed to read config file " ++ config.text ++ ": " ++ fault.message
  | configMalformed config => "invalid config file " ++ config.text
  | targetsMalformed config pattern =>
    "invalid config file " ++ config.text ++ ": compilerOptions.paths['" ++ pattern
      ++ "'] must be an array of strings"
  | optionMissing config option =>
    config.text ++ " is missing compilerOptions." ++ option.label
  | badGlob pattern fault => "invalid glob pattern '" ++ pattern ++ "': " ++ fault.message
  | unreadable file => "Failed to read " ++ file.text
  | noSources output => "No source files found for " ++ output.text
  | outputUnnamed out => "Output path " ++ out.text ++ " does not name a file"
  | outputFolderMissing folder => "Output directory " ++ folder.text ++ " does not exist"
  | unnamed path => path.text ++ " does not name a file"
  | notWritten staged => "Failed to write " ++ staged.text
  | notReplaced path => "Failed to replace " ++ path.text
  | noCurrentFolder => "Failed to get current directory"
  | unwalkable folder fault =>
    folder.text ++ ": IO error for operation on " ++ folder.text ++ ": " ++ fault.message
  | badIgnoreLines faults => "\n".intercalate (faults.map LineFault.message)

end Failure

end BarrelAlias
