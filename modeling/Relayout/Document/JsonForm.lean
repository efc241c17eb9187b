import Relayout.Document.Schema
import Relayout.Json.Basic

/-!
# Configurations as JSON

A record is an object, whatever other fields it has, or an array of its first fields in order.
A form is an object with one field. A field that is missing is not written.
-/

namespace Relayout

namespace Json

def format : Format Json where
  text
    | .string t => some t
    | _ => none
  flag
    | .bool b => some b
    | _ => none
  version
    | .integer n => if 0 ≤ n ∧ n.toNat < UInt32.size then some n.toNat.toUInt32 else none
    | _ => none
  list
    | .array items => some items
    | _ => none
  optional
    | .null => some none
    | v => some (some v)
  record names
    | .object fields => some fun name => field? name fields
    | .array items =>
      if items.length ≤ names.length then some fun name => field? name (names.zip items) else none
    | _ => none
  pair
    | .array [v, w] => some (v, w)
    | _ => none
  form
    | .object [(name, v)] => some (name.toList, v)
    | _ => none

end Json

namespace Config

def textsToJson (ts : List Text) : Json := .array (ts.map .string)

def writtenIf {α : Type} (name : String) (write : α → Json) : Option α → List (String × Json)
  | none => []
  | some a => [(name, write a)]

def ruleToJson : RuleSpec → Json
  | .replaceDirectoryName source target =>
    .object [("replaceDirectoryName", textsToJson [source, target])]
  | .appendDirectoryName name guard =>
    .object [("appendDirectoryName",
      .array [.string name, .object (writtenIf "fileRootNot" .string guard)])]
  | .replaceFileRoot fileRoot => .object [("replaceFileRoot", .string fileRoot)]

def rulesToJson (rules : List RuleSpec) : Json := .array (rules.map ruleToJson)

def deleteToJson (d : DeleteSpec) : Json :=
  .object (writtenIf "fileRoot" textsToJson d.fileRoot)

def testsToJson (tests : List Command) : List (String × Json) :=
  if tests = [] then [] else [("tests", .array (tests.map fun c => textsToJson c.words))]

def toJson (c : Config) : Json :=
  .object <|
    [("version", .integer c.version.toNat), ("posix", .bool c.posix),
      ("includePattern", .string c.includePattern),
      ("excludePatterns", textsToJson c.excludePatterns)]
    ++ writtenIf "deleteRules" deleteToJson c.deleteRules
    ++ writtenIf "replaceRules" rulesToJson c.replaceRules
    ++ writtenIf "copyRules" rulesToJson c.copyRules
    ++ testsToJson c.tests

def ofJson? (v : Json) : Option Config := read Json.format v

end Config

end Relayout
