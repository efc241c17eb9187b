import Relayout.Disk.Node
import Relayout.SystemError

/-!
# Looking paths up on a disk

A path is followed name by name from the root or the working directory, through links as well, of
which no more than `linkLimit` may be met. The last name is left to the call that asked: it may
have to be missing, or to be a link.
-/

namespace Relayout

structure Disk where
  root : Node
  workingDirectory : Place

/-- Where following a path ends: a directory, and the last name in it. -/
structure Spot where
  dir : Place
  /-- Missing where the path names the directory itself, as a path that ends in `..` does. -/
  name : Option Bytes
  /-- Whether a slash follows, which only a directory may be named with. -/
  slash : Bool

namespace Disk

def linkLimit : Nat := 40

def nameLimit : Nat := 255

/-- The number of bytes that a path stays below. -/
def pathLimit : Nat := 4096

def child? (d : Disk) (dir : Place) (name : Bytes) : Except SystemError (Option Node) :=
  if nameLimit < name.length then .error .enametoolong
  else .ok (d.root.at? (dir ++ [name]))

/-- The names of a path one after the other, `.` and `..` included. -/
def names (p : Path) : List Bytes := (Text.pieces Path.slash p.bytes).filter (· ≠ [])

def start (dir : Place) (p : Path) : Place := if p.isAbsolute then [] else dir

def endsInSlash (p : Path) : Bool := p.bytes.getLast? = some Path.slash

/-- Follows names from a directory on. A link at the end is followed if `follows` says so of the
slash behind it. -/
def locate (d : Disk) (follows : Bool → Bool) (links : Nat) (slash : Bool) (dir : Place)
    (names : List Bytes) : Except SystemError Spot :=
  match names with
  | [] => .ok ⟨dir, none, slash⟩
  | name :: rest =>
    if name = [Path.dot] then d.locate follows links slash dir rest
    else if name = [Path.dot, Path.dot] then d.locate follows links slash dir.dropLast rest
    else
      let spot : Spot := ⟨dir, some name, slash⟩
      if rest = [] ∧ ¬ follows slash then .ok spot
      else
        match d.child? dir name with
        | .error e => .error e
        | .ok none => if rest = [] then .ok spot else .error .enoent
        | .ok (some (.file _)) => if rest = [] then .ok spot else .error .enotdir
        | .ok (some (.dir _)) =>
          if rest = [] then .ok spot else d.locate follows links slash (dir ++ [name]) rest
        | .ok (some (.link target)) =>
          match links with
          | 0 => .error .eloop
          | links + 1 =>
            d.locate follows links (slash || (rest = [] && endsInSlash target))
              (start dir target) (Disk.names target ++ rest)
termination_by (links, names.length)

def locatePath (d : Disk) (follows : Bool → Bool) (p : Path) : Except SystemError Spot :=
  if 0 ∈ p.bytes then .error .nulInPath
  else if p.isEmpty then .error .enoent
  else if pathLimit ≤ p.bytes.length then .error .enametoolong
  else d.locate follows linkLimit (endsInSlash p) (start d.workingDirectory p) (names p)

/-- The place that a path leads to, all links followed. -/
def find (d : Disk) (p : Path) : Except SystemError Place := do
  let spot ← d.locatePath (fun _ => true) p
  match spot.name with
  | none => return spot.dir
  | some name =>
    match ← d.child? spot.dir name with
    | none => .error .enoent
    | some (.file _) => if spot.slash then .error .enotdir else return spot.dir ++ [name]
    | some _ => return spot.dir ++ [name]

end Disk

end Relayout
