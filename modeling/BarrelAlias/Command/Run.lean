import BarrelAlias.Command.Request

/-!
A command from its arguments to what it prints. Arguments that are refused end it with 2, a failure
with 1; in both cases nothing goes to the standard output.
-/

namespace BarrelAlias.Command

/-- What a command that succeeded has to say. -/
structure Report where
  text : String
  files : Nat
  warnings : List Warning

/-- A barrel that was not written is printed, whatever the verbosity. -/
def barrelReport (t : Terminal) (shows : Bool) (o : Barrel.Outcome) : Report where
  text := (if o.written then "" else o.preview) ++ (if shows then o.summary t else "")
  files := o.files.length
  warnings := o.warnings

def aliasReport (t : Terminal) (shows : Bool) (o : Alias.Outcome) : Report where
  text := if shows then Alias.listing t o.edits ++ o.summary t else ""
  files := o.analyzed
  warnings := o.warnings

structure Effort where
  milliseconds : Nat
  threads : Nat

def closing (t : Terminal) (e : Effort) (files : Nat) : String :=
  "\n" ++ t.paint .brightBlue "●" ++ " Finished in " ++ t.paint .cyan (Nat.repr e.milliseconds)
    ++ "ms on " ++ t.paint .cyan (Nat.repr files) ++ " files (using "
    ++ t.paint .cyan (Nat.repr e.threads) ++ " threads).\n"

inductive Remark
  | warning (w : Warning)
  | failure (f : Failure)
  | usage (f : UsageFault)

def Remark.message : Remark → String
  | warning w => "warning: " ++ w.message
  | failure f => "Error: " ++ f.message
  | usage f => "error: " ++ f.message

structure Ending where
  exit : Nat
  /-- What is printed, once it is known what the run took. -/
  output : Effort → String
  remarks : List Remark
  tree : FileTree

namespace Request

def run (r : Request) (w : Workspace) (colour : Bool) : Except Failure Report × FileTree :=
  let t := w.terminal colour
  let shows := r.verbosity.showsReports
  match r with
  | barrel b => (b.toJob.run w).map (Except.map (barrelReport t shows)) id
  | aliases a => (a.toJob.run w).map (Except.map (aliasReport t shows)) id

def output (r : Request) (t : Terminal) (report : Report) (e : Effort) : String :=
  report.text ++ if r.verbosity.showsReports then closing t e report.files else ""

/-- The remarks of a successful run; only errors are said if no warnings are wanted. -/
def remarks (r : Request) (report : Report) : List Remark :=
  if r.verbosity = .error then [] else report.warnings.map .warning

end Request

/-- The exit code for arguments that are refused; who asks for help has done nothing wrong. -/
def UsageFault.exit (f : UsageFault) : Nat := if f = .helpWanted then 0 else 2

def execute (args : List String) (w : Workspace) (colour : Bool) : Ending :=
  match Request.parse args with
  | .error f => ⟨f.exit, fun _ => "", [.usage f], w.tree⟩
  | .ok r =>
    match r.run w colour with
    | (.ok report, t) => ⟨0, r.output (w.terminal colour) report, r.remarks report, t⟩
    | (.error f, t) => ⟨1, fun _ => "", [.failure f], t⟩

end BarrelAlias.Command
