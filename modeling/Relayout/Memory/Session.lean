import Relayout.Execution
import Relayout.Memory.Basic

/-!
# Sessions on a tree in memory

A session keeps readers and writers open in named slots while calls and commands go on. A reader
holds what its file held when it was opened. Each step gives a result and leaves the session going,
whether it failed or not.
-/

namespace Relayout

structure Session where
  fs : MemoryFs
  readers : List (String × Bytes)
  writers : List (String × MemoryWriter)

namespace Session

inductive Step
  | execute (command : Command)
  | batch (commands : List Command)
  | unlink (path : Path)
  | makeDirs (path : Path)
  | writeFile (path : Path) (data : Bytes)
  | openRead (path : Path) (slot : String)
  | readAll (slot : String)
  | openWrite (path : Path) (slot : String)
  | write (slot : String) (data : Bytes)
  | flush (slot : String)
  | shutdown (slot : String)
  | drop (slot : String)

inductive Result
  | done
  | content (bytes : Bytes)
  | summary (summary : Summary)
  | faulted (fault : Fault)
  | failed (error : SystemError)
  | nothingOpen

def start (fs : MemoryFs) : Session := ⟨fs, [], []⟩

def slot? {α : Type} (slot : String) (slots : List (String × α)) : Option α :=
  (slots.find? (·.1 = slot)).map (·.2)

def clear {α : Type} (slot : String) (slots : List (String × α)) : List (String × α) :=
  slots.filter (·.1 ≠ slot)

def set {α : Type} (slot : String) (a : α) (slots : List (String × α)) : List (String × α) :=
  (slot, a) :: clear slot slots

/-- Makes a call on the tree; `next` says what a success means for the session. -/
def call {α : Type} (s : Session) (c : MemoryFs.Call α) (next : Session → α → Result × Session) :
    Result × Session :=
  let (result, fs) := c s.fs
  let s := { s with fs }
  match result with
  | .ok a => next s a
  | .error e => (.failed e, s)

def command {α : Type} (s : Session) (c : ExceptT Fault (StateM MemoryFs) α) (next : α → Result) :
    Result × Session :=
  let (result, fs) := c s.fs
  (match result with
    | .ok a => next a
    | .error f => .faulted f, { s with fs })

def withWriter (s : Session) (slot : String) (next : MemoryWriter → Result × Session) :
    Result × Session :=
  match slot? slot s.writers with
  | none => (.nothingOpen, s)
  | some w => next w

def step (s : Session) : Step → Result × Session
  | .execute c => s.command (Execution.execute c) fun _ => .done
  | .batch cs => s.command (Execution.executeAll cs) .summary
  | .unlink p => s.call (MemoryFs.unlink p) fun s _ => (.done, s)
  | .makeDirs p => s.call (MemoryFs.makeDirs p) fun s _ => (.done, s)
  | .writeFile p data => s.call (MemoryFs.writeFile p data) fun s _ => (.done, s)
  | .openRead p slot =>
    s.call (MemoryFs.openRead p) fun s content =>
      (.done, { s with readers := set slot content s.readers })
  | .readAll slot =>
    match slot? slot s.readers with
    | none => (.nothingOpen, s)
    | some content => (.content content, { s with readers := set slot [] s.readers })
  | .openWrite p slot =>
    s.call (MemoryFs.openWrite p) fun s w => (.done, { s with writers := set slot w s.writers })
  | .write slot data =>
    s.withWriter slot fun w =>
      match w.write data with
      | .ok w => (.done, { s with writers := set slot w s.writers })
      | .error e => (.failed e, s)
  | .flush slot => s.withWriter slot fun _ => (.done, s)
  | .shutdown slot =>
    s.withWriter slot fun w =>
      s.call w.shutdown fun s w => (.done, { s with writers := set slot w s.writers })
  | .drop slot => (.done, { s with writers := clear slot s.writers })

end Session

end Relayout
