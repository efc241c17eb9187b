import Relayout.Disk.Survey
import Relayout.Execution
import Relayout.Listing

/-!
# File systems made of system calls

Where single calls of the system can be made, commands can be carried out and files listed. A
directory is made by trying it first and those above it only when it cannot be there without them.
-/

namespace Relayout

class SystemCalls (m : Type → Type) (Reader Writer : outParam Type) where
  workingDirectory : m Path
  isDir : Path → m Bool
  survey : Path → m Survey
  unlink : Path → ExceptT SystemError m Unit
  /-- Makes a directory where nothing is yet. -/
  makeDir : Path → ExceptT SystemError m Unit
  openRead : Path → ExceptT SystemError m Reader
  openWrite : Path → ExceptT SystemError m Writer
  read : Reader → ExceptT SystemError m Bytes
  write : Writer → Bytes → ExceptT SystemError m Unit
  close : Writer → ExceptT SystemError m Unit

namespace SystemCalls

variable {m : Type → Type} {Reader Writer : Type} [Monad m] [SystemCalls m Reader Writer]

/-- Makes a directory, unless it is there. -/
def settle (p : Path) : ExceptT SystemError m Unit :=
  tryCatch (makeDir p) fun e => do
    if ← liftM (isDir p : m Bool) then return else throw e

/-- Makes the first of some directories, each of which lies in the next. -/
def makeFirst : List Path → ExceptT SystemError m Unit
  | [] => pure ()
  | p :: above =>
    tryCatch (makeDir p) fun e => do
      if e.kind = .notFound then
        makeFirst above
        settle p
      else if ← liftM (isDir p : m Bool) then return
      else throw e

def makeDirs (p : Path) : ExceptT SystemError m Unit :=
  makeFirst (p.ancestors.takeWhile (·.bytes ≠ []))

def readFile (p : Path) : ExceptT SystemError m Bytes := do read (← openRead p)

instance : FileSystem m Reader Writer where
  unlink := unlink
  makeDirs := makeDirs
  openRead := openRead
  openWrite := openWrite
  pour reader writer := do
    let content ← read reader
    write writer content
    return (content.length, writer)
  close := close
  writeFile p content := do
    let writer ← openWrite p
    write writer content
    close writer

/-- Lists the files below a root, which is resolved anew whenever the lister is asked. -/
def lister [Journal m] (root : Path) : Lister m := fun included excluded =>
  ExceptT.run do
    let selection ← liftExcept (Glob.Selection.ofPatterns included excluded)
    let root ← liftExcept (Listing.resolveRoot (← liftM (workingDirectory : m Path)) root)
    let files ← liftExcept ((← liftM (survey root : m Survey)).files root)
    let paths := Listing.below root selection files
    note (.discovered paths.length root included)
    return paths

end SystemCalls

end Relayout
