import Relayout.Cli.Program

/-!
# The command line

Runs the program on the system: its calls are made to the system's files and its lines go to the
standard streams.
-/

namespace Relayout.System

/-- The system, for a program that may be verbose. -/
abbrev SystemM := ReaderT Bool IO

def errorNumber : IO.Error → Nat
  | .alreadyExists _ code _ | .otherError code _ | .resourceBusy code _
  | .resourceVanished code _ | .unsupportedOperation code _ | .hardwareFault code _
  | .unsatisfiedConstraints code _ | .illegalOperation code _ | .protocolError code _
  | .timeExpired code _ | .interrupted _ code _ | .noFileOrDirectory _ code _
  | .invalidArgument _ code _ | .permissionDenied _ code _ | .resourceExhausted _ code _
  | .inappropriateType _ code _ | .noSuchThing _ code _ => code.toNat
  | .unexpectedEof | .userError _ => 5

def call {α : Type} (x : IO α) : ExceptT SystemError SystemM α :=
  ExceptT.mk (tryCatch (do return .ok (← x)) fun e => pure (.error (.errno (errorNumber e))))

/-- Makes a call about a path, which the system takes only without a byte 0. The calls are made with
texts here, so a path with strays counts as one that cannot be encoded. -/
def callOn {α : Type} (p : Path) (x : String → IO α) : ExceptT SystemError SystemM α :=
  if 0 ∈ p.bytes then throw .nulInPath
  else
    match p.text? with
    | some text => call (x (String.ofList text))
    | none => throw (.errno 84)

def isRealDir (p : String) : IO Bool := do
  try
    let data ← ((← IO.currentDir) / p).symlinkMetadata
    return data.type matches .dir
  catch _ => return false

partial def survey (p : Path) : IO Survey := do
  try
    let entries ← ((← IO.currentDir) / p.toString).readDir
    let found ← entries.toList.mapM fun entry => do
      let name := Text.toUtf8 entry.fileName.toList
      try
        match (← entry.path.symlinkMetadata).type with
        | .symlink => return (name, Survey.link)
        | .dir => return (name, ← survey (p.entry name))
        | _ => return (name, Survey.file)
      catch e => return (name, .unknown (.errno (errorNumber e)))
    return .dir found none
  catch e => return .unreadable (.errno (errorNumber e))

instance : Journal SystemM where
  note n := do
    match n.line? (← read) with
    | some line => IO.println line
    | none => return

instance : Console SystemM where
  printLine text := IO.println text
  complain text := IO.eprint text

instance : SystemCalls SystemM IO.FS.Handle IO.FS.Handle where
  workingDirectory := do return .ofText (← IO.currentDir).toString.toList
  isDir p := do ((← IO.currentDir) / p.toString).isDir
  survey p := survey p
  unlink p := do
    if ← callOn p isRealDir then throw .eisdir
    callOn p fun name => IO.FS.removeFile name
  makeDir p := callOn p fun name => IO.FS.createDir name
  openRead p := callOn p fun name => IO.FS.Handle.mk name .read
  openWrite p := callOn p fun name => IO.FS.Handle.mk name .write
  read handle := call do return (← handle.readBinToEnd).toList
  write handle content := call (handle.write ⟨content.toArray⟩)
  close handle := call handle.flush

def run (arguments : List String) : IO UInt32 :=
  match Cli.readArguments (arguments.map String.toList) with
  | .ok invocation => (Cli.run invocation.request : SystemM UInt32).run invocation.verbose
  | .error why => (Cli.stop why : SystemM UInt32).run false

end Relayout.System

def main (arguments : List String) : IO UInt32 := Relayout.System.run arguments
