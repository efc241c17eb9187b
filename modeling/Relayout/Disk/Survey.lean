import Relayout.Fault
import Relayout.Disk.Calls

/-!
# Surveys of directories

A survey tells what the entries of a directory were found to be, and those of the directories in
it. Its files are all entries that are neither links nor directories. If any directory could not be
read to its end, or any entry not be looked at, there is no list of files at all.
-/

namespace Relayout

inductive Survey
  | file
  | link
  /-- The entries as they were given, and the failure that reading them ended with, if any. -/
  | dir (entries : List (Bytes × Survey)) (failure : Option SystemError)
  /-- An entry of which it could not be told what it is. -/
  | unknown (error : SystemError)

namespace Survey

def unreadable (error : SystemError) : Survey := dir [] (some error)

mutual

def files (p : Path) : Survey → Except Fault (List Path)
  | file => .ok [p]
  | link => .ok []
  | dir entries failure => do
    let found ← filesIn p entries
    match failure with
    | none => return found
    | some e => .error (.io .readDirectory p e)
  | unknown e => .error (.io .stat p e)

def filesIn (dir : Path) : List (Bytes × Survey) → Except Fault (List Path)
  | [] => .ok []
  | (name, s) :: rest => do
    let first ← s.files (dir.entry name)
    let others ← filesIn dir rest
    return first ++ others

end

mutual

def ofNode : Node → Survey
  | .file _ => file
  | .link _ => link
  | .dir entries => dir (ofEntries entries) none

def ofEntries : List (Bytes × Node) → List (Bytes × Survey)
  | [] => []
  | (name, n) :: rest => (name, ofNode n) :: ofEntries rest

end

end Survey

/-- The survey of the directory at a path, to which links may lead. -/
def Disk.survey (d : Disk) (p : Path) : Survey :=
  match d.find p with
  | .error e => .unreadable e
  | .ok place =>
    match d.root.at? place with
    | some (.dir entries) => .dir (Survey.ofEntries entries) none
    | _ => .unreadable .enotdir

end Relayout
