import Relayout.Command.Basic
import Relayout.Json.Basic

/-!
# Commands as JSON

A command is written as an object with its kind and its paths, but not if one of these has strays.
It is read from such an object, whatever other fields that has, and from an array of the kind and
the paths.
-/

namespace Relayout.Command

def Kind.fieldNames : Kind → List String
  | .delete | .create => ["path"]
  | .move | .copy => ["fromPath", "toPath"]

def Kind.ofWord? (word : Text) : Option Kind :=
  [delete, move, copy, create].find? fun k => k.word.toList = word

def paths : Command → List Path
  | .delete p | .create p => [p]
  | .move p q | .copy p q => [p, q]

def ofPaths? : Kind → List Path → Option Command
  | .delete, [p] => some (.delete p)
  | .create, [p] => some (.create p)
  | .move, [p, q] => some (.move p q)
  | .copy, [p, q] => some (.copy p q)
  | _, _ => none

def toJson? (c : Command) : Option Json := do
  let texts ← c.paths.mapM Path.text?
  return .object (("kind", .string c.kind.word.toList) ::
    c.kind.fieldNames.zip (texts.map .string))

def readKind? : Json → Option Kind
  | .string word => Kind.ofWord? word
  | _ => none

def readPath? : Json → Option Path
  | .string t => some (.ofText t)
  | _ => none

def ofJson? : Json → Option Command
  | .object fields => do
    let kind ← readKind? (← Json.field? "kind" fields)
    let paths ← kind.fieldNames.mapM fun name => do readPath? (← Json.field? name fields)
    ofPaths? kind paths
  | .array (kind :: paths) => do ofPaths? (← readKind? kind) (← paths.mapM readPath?)
  | _ => none

end Relayout.Command
