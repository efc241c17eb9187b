import Relayout.Journal
import Relayout.SystemError
import Relayout.Text.Utf8

/-!
# File systems

The calls that commands are carried out with. Readers and writers are values of the file system's
own: what a writer was given is stored when it is closed.
-/

namespace Relayout

class FileSystem (m : Type → Type) (Reader Writer : outParam Type) where
  unlink : Path → ExceptT SystemError m Unit
  /-- Makes a directory and those it lies in; one that is there already will do. -/
  makeDirs : Path → ExceptT SystemError m Unit
  openRead : Path → ExceptT SystemError m Reader
  /-- Opens a file for writing, empty, whether it was there or not. -/
  openWrite : Path → ExceptT SystemError m Writer
  pour : Reader → Writer → ExceptT SystemError m (Nat × Writer)
  close : Writer → ExceptT SystemError m Unit
  /-- Writes a whole file into a directory that must be there. -/
  writeFile : Path → Bytes → ExceptT SystemError m Unit

end Relayout
