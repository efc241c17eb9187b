import Relayout.Document.Config

/-!
# Reading a configuration from a value

The schema is stated once, over what it asks of the values of a document format: a text, a list,
a record and so on, each of which a value may or may not be. Formats differ in which values they
take for which of these.
-/

namespace Relayout

/-- How the values of a document format are taken apart. -/
structure Format (ν : Type) where
  text : ν → Option Text
  flag : ν → Option Bool
  version : ν → Option UInt32
  list : ν → Option (List ν)
  /-- A value that may be left out by writing that there is none. -/
  optional : ν → Option (Option ν)
  record : List String → ν → Option (String → Option ν)
  pair : ν → Option (ν × ν)
  /-- One of several forms: its name and what is said about it. -/
  form : ν → Option (Text × ν)

namespace Format

variable {ν : Type} (F : Format ν)

def texts (v : ν) : Option (List Text) := do (← F.list v).mapM F.text

def optionalField {α : Type} (read : ν → Option α) (field : Option ν) : Option (Option α) :=
  match field with
  | none => some none
  | some v => do
    match ← F.optional v with
    | none => some none
    | some w => some (some (← read w))

def listField {α : Type} (read : ν → Option α) (field : Option ν) : Option (List α) :=
  match field with
  | none => some []
  | some v => do (← F.list v).mapM read

end Format

namespace Config

variable {ν : Type} (F : Format ν)

def readGuard (v : ν) : Option (Option Text) := do
  F.optionalField F.text ((← F.record ["fileRootNot"] v) "fileRootNot")

def readRule (v : ν) : Option RuleSpec := do
  let (name, v) ← F.form v
  if name = "replaceDirectoryName".toList then
    let (source, target) ← F.pair v
    return .replaceDirectoryName (← F.text source) (← F.text target)
  else if name = "appendDirectoryName".toList then
    let (name, guard) ← F.pair v
    return .appendDirectoryName (← F.text name) (← readGuard F guard)
  else if name = "replaceFileRoot".toList then
    return .replaceFileRoot (← F.text v)
  else none

def readRules (v : ν) : Option (List RuleSpec) := do (← F.list v).mapM (readRule F)

def readDelete (v : ν) : Option DeleteSpec := do
  return ⟨← F.optionalField F.texts ((← F.record ["fileRoot"] v) "fileRoot")⟩

def readTest (v : ν) : Option Command := do Command.ofWords? (← F.texts v)

def fieldNames : List String :=
  ["version", "posix", "includePattern", "excludePatterns", "deleteRules", "replaceRules",
    "copyRules", "tests"]

def read (v : ν) : Option Config := do
  let field ← F.record fieldNames v
  return {
    version := ← F.version (← field "version")
    posix := ← F.flag (← field "posix")
    includePattern := ← F.text (← field "includePattern")
    excludePatterns := ← F.listField F.text (field "excludePatterns")
    deleteRules := ← F.optionalField (readDelete F) (field "deleteRules")
    replaceRules := ← F.optionalField (readRules F) (field "replaceRules")
    copyRules := ← F.optionalField (readRules F) (field "copyRules")
    tests := ← F.listField (readTest F) (field "tests") }

end Config

end Relayout
