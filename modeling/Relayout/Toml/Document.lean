import Relayout.Toml.Reader

/-!
# TOML documents

A document is a list of lines, each of which is empty, begins a table with a header, or defines a
key in the table begun last.
-/

namespace Relayout.Toml.Document

/-- A document of which some lines have been read: what they define, and the path of the table that
the next key belongs to. -/
structure State where
  root : Entries
  path : List Text

def State.header? (ofArray : Bool) (key : List Text) (d : State) : Option State := do
  let last ← key.getLast?
  let start := if ofArray then Table.beginNext? last else Table.begin? last
  let root ← Table.change? false (fun _ => start) key.dropLast .header d.root
  return { root, path := key }

def State.define? (key : List Text) (v : Value) (d : State) : Option State := do
  let root ← Table.change? false (Table.define? key v) d.path .header d.root
  return { d with root }

/-- Reads a header after its first bracket. -/
def readHeader? : Text → Option (Bool × List Text × Text)
  | '[' :: s => do
    let (key, rest) ← readKey? s
    match rest with
    | ']' :: ']' :: rest => return (true, key, rest)
    | _ => none
  | s => do
    let (key, rest) ← readKey? s
    match rest with
    | ']' :: rest => return (false, key, rest)
    | _ => none

def readLine? (d : State) (s : Text) : Option (State × Text) :=
  match s with
  | [] => some (d, [])
  | c :: rest =>
    if c = '#' ∨ c = '\n' ∨ c = '\r' then some (d, s)
    else if c = '[' then do
      let (ofArray, key, rest) ← readHeader? rest
      return (← d.header? ofArray key, rest)
    else do
      let (key, rest) ← readAssigned? s
      let (v, rest) ← readValue? nestingLimit rest
      return (← d.define? key v, rest)

def readFrom? (d : State) (s : Text) : Option State :=
  match s with
  | [] => some d
  | s => do
    let (d, rest) ← readLine? d (skipBlanks s)
    let rest ← nextLine? rest
    if rest.length < s.length then readFrom? d rest else none
termination_by s.length

/-- The entries of a document, in front of which a byte order mark may stand. -/
def ofText? (s : Text) : Option Entries :=
  let s := if s.head? = some '\ufeff' then s.drop 1 else s
  (readFrom? ⟨[], []⟩ s).map (·.root)

end Relayout.Toml.Document
