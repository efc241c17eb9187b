import Relayout.Execution
import Relayout.Transform

/-!
# Runs and tests

A run lists the files of a root, plans the commands for them, and carries these out unless only
the plan is wanted. A test of a document asks for the command that the file it is about would get
in a tree without other files; testing stops at the first test that gets something else.
-/

namespace Relayout.Transform

variable {m : Type → Type} {Reader Writer : Type} [Monad m] [Journal m]

def plan (t : Transform) (lister : Lister m) : ExceptT Fault m (List Command) := do
  let files ← ExceptT.mk (lister t.included t.excluded)
  let commands := t.commandsFor files
  note (.planned commands.length files.length)
  return commands

/-- Runs the tests, which begin at `position`. -/
def checkFrom (t : Transform) (root : Path) (position : Nat) :
    List Command → ExceptT Fault m Unit
  | [] => return
  | expected :: rest => do
    let actual ← t.plan (Listing.lister root [expected.source])
    if meets expected actual then
      note (.testPassed position expected)
      t.checkFrom root (position + 1) rest
    else throw (.testFailed position expected actual)

def check (t : Transform) (root : Path) : ExceptT Fault m Nat := do
  t.checkFrom root 1 t.tests
  return t.tests.length

variable [FileSystem m Reader Writer]

/-- The commands, and the summary of their execution if they were carried out. -/
def run (t : Transform) (lister : Lister m) (dryRun : Bool) :
    ExceptT Fault m (List Command × Option Summary) := do
  let commands ← t.plan lister
  if dryRun then return (commands, none)
  let summary ← Execution.executeAll commands
  return (commands, some summary)

end Relayout.Transform
