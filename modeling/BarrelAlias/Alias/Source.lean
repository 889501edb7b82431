import BarrelAlias.Alias.Directory
import BarrelAlias.Alias.Report
import BarrelAlias.Linkage.Summary
import BarrelAlias.Quote

/-!
Aliases in the text of a file. Only the specifiers that an alias replaces change; all else stays as
it is.
-/

namespace BarrelAlias.Alias

open Linkage (Site)

structure Replacement where
  site : Site
  aliased : String
  quoted : String
deriving DecidableEq, Repr

def isRelative (specifier : String) : Bool := Text.beginsWith "." specifier

/-- The replacement of a specifier in a file in `dir`, unless it stands there already. -/
def replacement? (d : Directory) (quote : QuoteStyle) (dir : Path) (source : List Char)
    (s : Site) : Option Replacement :=
  if isRelative s.value then
    (d.aliasFor? dir s.value).bind fun aliased =>
      let quoted := quote.quote aliased
      if quoted.toList = s.quoted.slice source then none else some ⟨s, aliased, quoted⟩
  else none

def Replacement.edit (file : Path) (source : List Char) (r : Replacement) : Edit :=
  let old := r.site.statement.slice source
  { file := file
    oldSpecifier := r.site.value
    newSpecifier := r.aliased
    oldStatement := String.ofList old
    newStatement := String.ofList
      ((r.site.quoted.from r.site.statement.start).replace r.quoted.toList old) }

/-- The text after all replacements, the last of which is made first so that the others keep their
places. -/
def applyAll (source : List Char) (rs : List Replacement) : List Char :=
  rs.foldr (fun r text => r.site.quoted.replace r.quoted.toList text) source

/-- The text of a file with aliases in it, and the edits that lead there. -/
def shorten (d : Directory) (quote : QuoteStyle) (file : Path) (text : String) :
    Except Failure (String × List Edit) := do
  let dir := file.parent?.getD .top
  let source := text.toList
  let rs := (← Linkage.sites file text).filterMap (replacement? d quote dir source)
  return (String.ofList (applyAll source rs), rs.map (·.edit file source))

end BarrelAlias.Alias
