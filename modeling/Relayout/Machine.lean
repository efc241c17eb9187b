import Relayout.Console
import Relayout.Disk.Calls
import Relayout.SystemCalls

/-!
# Machines

A machine is a disk and what has been said on its console. Programs that make system calls run on
it as on the system itself.
-/

namespace Relayout

inductive Output
  | notice (n : Notice)
  | line (text : String)

structure Machine where
  disk : Disk
  output : List Output
  complaints : String

namespace Machine

def ofDisk (disk : Disk) : Machine := ⟨disk, [], ""⟩

def call {α : Type} (c : Disk.Call α) : ExceptT SystemError (StateM Machine) α :=
  fun m =>
    match c m.disk with
    | .ok (a, disk) => (.ok a, { m with disk })
    | .error e => (.error e, m)

def put (o : Output) : StateM Machine Unit :=
  modify fun m => { m with output := m.output ++ [o] }

/-- The lines put out, those of notices included. -/
def lines (verbose : Bool) (m : Machine) : List String :=
  m.output.filterMap fun
    | .notice n => n.line? verbose
    | .line text => some text

end Machine

instance : Journal (StateM Machine) := ⟨fun n => Machine.put (.notice n)⟩

instance : Console (StateM Machine) where
  printLine text := Machine.put (.line text)
  complain text := modify fun m => { m with complaints := m.complaints ++ text }

/-- Open files are known by their places. -/
instance : SystemCalls (StateM Machine) Place Place where
  workingDirectory := do return (← get).disk.workingDirectory.path
  isDir p := do return (← get).disk.isDir p
  survey p := do return (← get).disk.survey p
  unlink p := Machine.call (Disk.unlink p)
  makeDir p := Machine.call (Disk.makeDir p)
  openRead p := Machine.call fun d => (d.find p).map (·, d)
  openWrite p := Machine.call (Disk.openWrite p)
  read place := Machine.call fun d => (d.read place).map (·, d)
  write place content := Machine.call fun d => .ok ((), d.write place content)
  close _ := pure ()

end Relayout
