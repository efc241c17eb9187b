import Relayout.FileSystem
import Relayout.Path.Map

/-!
# File trees in memory

A tree holds files, directories and the paths at which writing fails, and counts the calls made to
it. A writer keeps what it is given until it is shut down, which stores all of it at once.
Places are compared by components.
-/

namespace Relayout

structure MemoryFs where
  files : PathMap Bytes
  dirs : List Path
  failing : List Path
  operations : Nat

/-- A file opened for writing, with what it was given since it was opened or last shut down. -/
structure MemoryWriter where
  path : Path
  buffer : Bytes
  fails : Bool
  deriving DecidableEq

namespace MemoryFs

def empty : MemoryFs := ⟨.empty, [], [], 0⟩

def exists? (fs : MemoryFs) (p : Path) : Bool := fs.files.contains p

def isDir (fs : MemoryFs) (p : Path) : Bool := fs.dirs.any (·.Same p)

def read? (fs : MemoryFs) (p : Path) : Option Bytes := fs.files.get? p

def paths (fs : MemoryFs) : List Path := fs.files.paths

def addDir (fs : MemoryFs) (p : Path) : MemoryFs :=
  if fs.isDir p then fs else { fs with dirs := fs.dirs ++ [p] }

def addDirs (fs : MemoryFs) (p : Path) : MemoryFs :=
  (p.ancestors.takeWhile (·.bytes ≠ [])).foldl addDir fs

/-- Whether the directory that a file would lie in is there. The root and the empty path are. -/
def hasParent (fs : MemoryFs) (p : Path) : Bool :=
  match p.parent? with
  | none => true
  | some dir => dir.parent?.isNone || fs.isDir dir

def store (fs : MemoryFs) (p : Path) (content : Bytes) : MemoryFs :=
  { fs with files := fs.files.insert p content }

def withFile (fs : MemoryFs) (p : Path) (content : Bytes) : MemoryFs :=
  (match p.parent? with
    | none => fs
    | some dir => fs.addDirs dir).store p content

def withDir (fs : MemoryFs) (p : Path) : MemoryFs := fs.addDirs p

def failWritesTo (fs : MemoryFs) (p : Path) : MemoryFs := { fs with failing := p :: fs.failing }

def rejectsWrites (fs : MemoryFs) (p : Path) : Bool := fs.failing.any (·.Same p)

def count (fs : MemoryFs) : MemoryFs := { fs with operations := fs.operations + 1 }

abbrev Call (α : Type) := MemoryFs → Except SystemError α × MemoryFs

def unlink (p : Path) : Call Unit := fun fs =>
  if fs.exists? p then (.ok (), { fs.count with files := fs.files.erase p })
  else (.error (.noSuchEntry p), fs.count)

def makeDirs (p : Path) : Call Unit := fun fs =>
  match p.ancestors.find? fs.exists? with
  | some file => (.error (.fileInTheWay file), fs.count)
  | none => (.ok (), fs.count.addDirs p)

def openRead (p : Path) : Call Bytes := fun fs =>
  match fs.read? p with
  | some content => (.ok content, fs.count)
  | none => (.error (.noSuchEntry p), fs.count)

def openWrite (p : Path) : Call MemoryWriter := fun fs =>
  if fs.hasParent p then (.ok ⟨p, [], fs.rejectsWrites p⟩, fs.count.store p [])
  else (.error (.noSuchEntry p), fs.count)

def writeFile (p : Path) (content : Bytes) : Call Unit := fun fs =>
  if fs.rejectsWrites p then (.error (.writeRejected p), fs.count)
  else if fs.hasParent p then (.ok (), fs.count.store p content)
  else (.error (.noSuchEntry p), fs.count)

end MemoryFs

namespace MemoryWriter

/-- Gives bytes to a writer. Giving none never fails. -/
def write (w : MemoryWriter) (data : Bytes) : Except SystemError MemoryWriter :=
  if data = [] then .ok w
  else if w.fails then .error (.writeRejected w.path)
  else .ok { w with buffer := w.buffer ++ data }

/-- Stores what the writer was given. It starts anew with nothing. -/
def shutdown (w : MemoryWriter) : MemoryFs.Call MemoryWriter := fun fs =>
  if w.fails then (.error (.writeRejected w.path), fs)
  else (.ok { w with buffer := [] }, fs.store w.path w.buffer)

end MemoryWriter

instance : Journal (StateM MemoryFs) := ⟨fun _ => pure ()⟩

instance : FileSystem (StateM MemoryFs) Bytes MemoryWriter where
  unlink := MemoryFs.unlink
  makeDirs := MemoryFs.makeDirs
  openRead := MemoryFs.openRead
  openWrite := MemoryFs.openWrite
  pour content writer := fun fs => ((writer.write content).map fun w => (content.length, w), fs)
  close writer := fun fs =>
    let (result, fs) := writer.shutdown fs
    (result.map fun _ => (), fs)
  writeFile := MemoryFs.writeFile

end Relayout
