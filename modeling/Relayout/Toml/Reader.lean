import Relayout.Toml.Bare
import Relayout.Toml.Quoted
import Relayout.Toml.Table

/-!
# Reading TOML values

Arrays and inline tables may go over several lines, end with a comma and hold comments. They may
lie in each other up to a fixed depth, which is also how many parts a key may have.
-/

namespace Relayout.Toml

/-- How many arrays and inline tables may lie in each other, and how many tables a key may name. -/
def nestingLimit : Nat := 80

def readKeyPart? (s : Text) : Option (Text × Text) :=
  match s with
  | '"' :: _ | '\'' :: _ => Quoted.readSingle? s
  | s =>
    let part := s.takeWhile isBare
    if part = [] then none else some (part, s.drop part.length)

def readKeyParts? : (limit : Nat) → Text → Option (List Text × Text)
  | 0, _ => none
  | limit + 1, s => do
    let (part, rest) ← readKeyPart? (skipBlanks s)
    match skipBlanks rest with
    | '.' :: rest =>
      let (parts, rest) ← readKeyParts? limit rest
      return (part :: parts, rest)
    | rest => return ([part], rest)

def readKey? (s : Text) : Option (List Text × Text) := readKeyParts? nestingLimit s

def readAssigned? (s : Text) : Option (List Text × Text) := do
  let (key, rest) ← readKey? s
  match rest with
  | '=' :: rest => return (key, skipBlanks rest)
  | _ => none

def readAssignedOverLines? (s : Text) : Option (List Text × Text) := do
  let (key, rest) ← readKey? s
  match ← skipSpace? false rest with
  | '=' :: rest => return (key, ← skipSpace? false rest)
  | _ => none

/-- The text that is left after some of `s` was read. -/
def shorter? (s rest : Text) : Option { r : Text // r.length < s.length } :=
  if h : rest.length < s.length then some ⟨rest, h⟩ else none

mutual

/-- Reads a value in which `depth` more may lie. -/
def readValue? (depth : Nat) (s : Text) : Option (Value × Text) :=
  match s with
  | '[' :: rest =>
    if depth = 0 then none
    else (readItems? (depth - 1) rest).map fun (items, rest) => (.array false items, rest)
  | '\x7b' :: rest =>
    if depth = 0 then none
    else (readEntries? (depth - 1) [] rest).map fun (entries, rest) =>
      (.table .inline entries, rest)
  | '"' :: rest => (Quoted.read? ('"' :: rest)).map fun (t, rest) => (.string t, rest)
  | '\'' :: rest => (Quoted.read? ('\'' :: rest)).map fun (t, rest) => (.string t, rest)
  | s => Bare.read? s
termination_by 2 * s.length

def readItems? (depth : Nat) (s : Text) : Option (List Value × Text) := do
  let before ← skipSpace? false s
  match before with
  | ']' :: rest => return ([], rest)
  | before =>
    if _h : before.length ≤ s.length then
      let (item, rest) ← readValue? depth before
      match ← skipSpace? false rest with
      | ']' :: rest => return ([item], rest)
      | ',' :: rest =>
        let ⟨rest, _⟩ ← shorter? s rest
        let (items, rest) ← readItems? depth rest
        return (item :: items, rest)
      | _ => none
    else none
termination_by 2 * s.length + 1

def readEntries? (depth : Nat) (entries : Entries) (s : Text) : Option (Entries × Text) := do
  let before ← skipSpace? false s
  match before with
  | '\x7d' :: rest => return (entries, rest)
  | before =>
    let (key, rest) ← readAssignedOverLines? before
    let ⟨rest, _⟩ ← shorter? s rest
    let (v, rest) ← readValue? depth rest
    let entries ← Table.define? key v .inline entries
    match ← skipSpace? false rest with
    | '\x7d' :: rest => return (entries, rest)
    | ',' :: rest =>
      let ⟨rest, _⟩ ← shorter? s rest
      readEntries? depth entries rest
    | _ => none
termination_by 2 * s.length + 1

end

end Relayout.Toml
