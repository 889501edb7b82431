/-!
How much a run says about itself.
-/

namespace BarrelAlias

/-- The levels, the most talkative first. -/
inductive Verbosity
  | debug
  | log
  | warn
  | error
deriving DecidableEq, Repr, Inhabited

inductive Severity
  | debug
  | info
  | warn
  | error
deriving DecidableEq, Repr

namespace Severity

def label : Severity → String
  | debug => "DEBUG"
  | info => "INFO"
  | warn => "WARN"
  | error => "ERROR"

end Severity

namespace Verbosity

def names : List (String × Verbosity) :=
  [("debug", debug), ("log", log), ("warn", warn), ("error", error)]

/-- The level with this name; small and capital letters may be taken for the same. -/
def ofName? (ignoreCase : Bool) (s : String) : Option Verbosity :=
  names.lookup (if ignoreCase then s.toLower else s)

def threshold : Verbosity → Severity
  | debug => .debug
  | log => .info
  | warn => .warn
  | error => .error

/-- Whether previews, listings and summaries are printed. -/
def showsReports : Verbosity → Bool
  | debug => true
  | log => true
  | warn => false
  | error => false

end Verbosity

end BarrelAlias
