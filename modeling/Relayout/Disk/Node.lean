import Relayout.Path.Basic

/-!
# Nodes of a disk

A disk is a tree of files, links and directories. A place in it is the list of names that leads
there from its root.
-/

namespace Relayout

inductive Node
  | file (content : Bytes)
  | link (target : Path)
  | dir (entries : List (Bytes × Node))

abbrev Place := List Bytes

def Place.path (place : Place) : Path := ⟨Path.slash :: Text.joined Path.slash place⟩

namespace Node

def empty : Node := .dir []

def named? (name : Bytes) (entries : List (Bytes × Node)) : Option Node :=
  (entries.find? (·.1 = name)).map (·.2)

/-- What lies at a place. Links on the way are not followed. -/
def at? : Place → Node → Option Node
  | [], n => some n
  | name :: place, .dir entries => (named? name entries).bind (at? place)
  | _ :: _, _ => none

def putEntry (name : Bytes) (node : Node) (entries : List (Bytes × Node)) : List (Bytes × Node) :=
  if entries.any (·.1 = name) then
    entries.map fun e => if e.1 = name then (name, node) else e
  else entries ++ [(name, node)]

def change (f : List (Bytes × Node) → List (Bytes × Node)) : Place → Node → Node
  | [], .dir entries => .dir (f entries)
  | name :: place, .dir entries =>
    .dir (entries.map fun e => if e.1 = name then (e.1, change f place e.2) else e)
  | _, n => n

def put (root : Node) (dir : Place) (name : Bytes) (node : Node) : Node :=
  root.change (putEntry name node) dir

def remove (root : Node) (dir : Place) (name : Bytes) : Node :=
  root.change (List.filter (·.1 ≠ name)) dir

end Node

end Relayout
