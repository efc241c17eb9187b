import Relayout.Cli.Arguments
import Relayout.Cli.Report
import Relayout.Command.JsonForm
import Relayout.Console
import Relayout.Document.Load
import Relayout.Run

/-!
# The program

Transforms a directory by a document, or checks a document and runs its tests. The exit code is 0
after success, 1 after a failure and 2 after a mistake in the command line.
-/

namespace Relayout.Cli

def name : String := "filemod"

def versionLine : String := name ++ " 0.1.0"

def usageLines : List String :=
  ["Usage: " ++ name ++ " [-v] transform [-d] [--json] FILE DIRECTORY",
    "       " ++ name ++ " [-v] check [--root DIRECTORY] FILE"]

variable {m : Type → Type} {Reader Writer : Type} [Monad m] [Journal m] [Console m]
  [SystemCalls m Reader Writer]

/-- Names what a fault keeps from being done. -/
def doing {α : Type} (summary : String) (x : ExceptT Fault m α) : ExceptT Report m α :=
  x.adapt (.within summary)

/-- Why a plan is not put out as JSON. -/
def strayReport : Report := ⟨"path contains invalid UTF-8 characters", []⟩

def showPlan (json : Bool) (commands : List Command) : ExceptT Report m Unit :=
  if json then
    match commands.mapM Command.toJson? with
    | some plan => liftM (printLine (Json.array plan).pretty : m Unit)
    | none => throw strayReport
  else liftM (commands.forM fun c => printLine ("  [dry-run] " ++ c.describe) : m Unit)

def transform (file root : Path) (dryRun json : Bool) : ExceptT Report m Unit := do
  let t ← doing ("Failed to load transform " ++ file.toString) (Transform.load file)
  let here ← liftM (SystemCalls.workingDirectory : m Path)
  let root ← liftExcept ((Listing.resolveRoot here root).mapError Report.ofFault)
  let (commands, summary) ←
    doing ("Failed to transform " ++ root.toString) (t.run (SystemCalls.lister root) dryRun)
  if dryRun then showPlan json commands
  match summary with
  | some summary => note (.applied summary)
  | none => return

def showRules (rules : RuleSets) : m Unit := do
  printLine "✓ Filemod is valid"
  printLine ("  " ++ toString rules.delete.length ++ " delete rules")
  printLine ("  " ++ toString rules.replace.length ++ " replace rules")
  printLine ("  " ++ toString rules.copy.length ++ " copy rules")

def runTests (t : Transform) (root : Path) : ExceptT Report m Unit := do
  liftM (showRules t.rules : m Unit)
  let passed ← doing "Embedded test failed" (t.check root)
  liftM (printLine ("  " ++ toString passed ++ " tests passed") : m Unit)

def exitCode (x : ExceptT Report m Unit) : m UInt32 := do
  match ← x.run with
  | .ok _ => return 0
  | .error report =>
    complain report.text
    return 1

def run : Request → m UInt32
  | .transform file root dryRun json => exitCode (transform file root dryRun json)
  | .check file root => do
    match ← (Transform.load file).run with
    | .ok t => exitCode (runTests t root)
    | .error f =>
      complain ("✗ Filemod error: " ++ f.message ++ "\n")
      return 1

/-- What is done where the command line leaves nothing to do. -/
def stop : Stop → m UInt32
  | .version => do
    printLine versionLine
    return 0
  | .help => do
    usageLines.forM printLine
    return 0
  | .misuse => do
    complain (String.join (usageLines.map (· ++ "\n")))
    return 2

end Relayout.Cli
