import Relayout.Disk.Lookup

/-!
# Calls on a disk

What single calls of the system do to a disk. A call that fails leaves the disk as it was.
-/

namespace Relayout.Disk

/-- A call on a disk: a failure, or a result and the disk it leaves. -/
abbrev Call (α : Type) := Disk → Except SystemError (α × Disk)

def unlink (p : Path) : Call Unit := fun d => do
  let spot ← d.locatePath (fun _ => false) p
  match spot.name with
  | none => .error .eisdir
  | some name =>
    match ← d.child? spot.dir name with
    | none => .error .enoent
    | some (.dir _) => .error .eisdir
    | some _ =>
      if spot.slash then .error .enotdir
      else return ((), { d with root := d.root.remove spot.dir name })

/-- Puts something where nothing is yet. -/
def putNew (p : Path) (node : Node) : Call Unit := fun d => do
  let spot ← d.locatePath (fun _ => false) p
  match spot.name with
  | none => .error .eexist
  | some name =>
    match ← d.child? spot.dir name with
    | some _ => .error .eexist
    | none => return ((), { d with root := d.root.put spot.dir name node })

def makeDir (p : Path) : Call Unit := putNew p .empty

def makeLink (p target : Path) : Call Unit := putNew p (.link target)

def isDir (d : Disk) (p : Path) : Bool :=
  match d.find p with
  | .ok place =>
    match d.root.at? place with
    | some (.dir _) => true
    | _ => false
  | .error _ => false

/-- The content at the place of a file opened for reading. A directory can be opened as well but
not read. -/
def read (place : Place) (d : Disk) : Except SystemError Bytes :=
  match d.root.at? place with
  | some (.file content) => .ok content
  | some (.dir _) => .error .eisdir
  | _ => .error .enoent

/-- Opens a file for writing, empty, whether it was there or not. -/
def openWrite (p : Path) : Call Place := fun d => do
  let spot ← d.locatePath (fun slash => ! slash) p
  match spot.name with
  | none => .error .eisdir
  | some name =>
    if spot.slash then .error .eisdir
    else
      match ← d.child? spot.dir name with
      | some (.dir _) => .error .eisdir
      | _ => return (spot.dir ++ [name], { d with root := d.root.put spot.dir name (.file []) })

def write (place : Place) (content : Bytes) (d : Disk) : Disk :=
  match place.getLast? with
  | none => d
  | some name => { d with root := d.root.put place.dropLast name (.file content) }

end Relayout.Disk
