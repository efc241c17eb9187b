import Relayout.Fault
import Relayout.FileSystem
import Relayout.Path.Parts

/-!
# Carrying out commands

A move is a copy after which the source is removed, so the source goes only once everything it
held has reached the target. A batch stops at its first failure, and what was done before it stays.
-/

namespace Relayout.Execution

variable {m : Type → Type} {Reader Writer : Type} [Monad m] [Journal m]
  [FileSystem m Reader Writer]

/-- Reports the failure of a call with what was being done to which path. -/
def during {α : Type} (operation : Operation) (path : Path) (call : ExceptT SystemError m α) :
    ExceptT Fault m α :=
  call.adapt (.io operation path)

def makeParent (path : Path) : ExceptT Fault m Unit :=
  match path.parent? with
  | none => pure ()
  | some dir =>
    if dir.isEmpty then pure () else during .createDirectory dir (FileSystem.makeDirs dir)

def copyFile (source target : Path) : ExceptT Fault m Unit := do
  makeParent target
  let reader ← during .open source (FileSystem.openRead source)
  let writer ← during .openForWriting target (FileSystem.openWrite target)
  let (count, writer) ← during .copyTo target (FileSystem.pour reader writer)
  during .finishWriting target (FileSystem.close writer)
  note (.copied count target)

def requireDistinct (kind : Command.Kind) (source target : Path) : ExceptT Fault m Unit :=
  if source.normalize = target.normalize then throw (.sameSourceAndTarget kind source)
  else pure ()

def execute : Command → ExceptT Fault m Unit
  | .delete path => do
    note (.deleting path)
    during .delete path (FileSystem.unlink path)
  | .move source target => do
    requireDistinct .move source target
    note (.moving source target)
    copyFile source target
    during .removeMoved source (FileSystem.unlink source)
  | .copy source target => do
    requireDistinct .copy source target
    note (.copying source target)
    copyFile source target
  | .create path => do
    note (.creating path)
    during .create path (FileSystem.writeFile path [])

def executeFrom (done : Summary) : List Command → ExceptT Fault m Summary
  | [] => pure done
  | c :: cs => do
    execute c
    executeFrom (done.record c.kind) cs

def executeAll (cs : List Command) : ExceptT Fault m Summary := do
  let summary ← executeFrom .empty cs
  note (.executed summary.total)
  return summary

end Relayout.Execution
