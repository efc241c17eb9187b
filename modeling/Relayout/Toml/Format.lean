import Relayout.Document.Schema
import Relayout.Toml.Document

/-!
# Configurations in TOML

A record is a table, an array of its first fields in order, or a date, which has no fields. In a
table unknown fields are ignored, but a number in one must be a number within range. Arrays may hold
more items than a record has fields or a pair has parts, and those are not looked at.
-/

namespace Relayout.Toml

namespace Value

mutual

/-- Whether every number in a value is one and within the range of numbers. -/
def isInRange : Value → Bool
  | .integer n => n.any fun n => -(Int.pow 2 127) ≤ n && n < Int.pow 2 128
  | .float inRange => inRange
  | .array _ items => allInRange items
  | .table _ entries => entriesInRange entries
  | _ => true

def allInRange : List Value → Bool
  | [] => true
  | v :: vs => isInRange v && allInRange vs

def entriesInRange : List (Text × Value) → Bool
  | [] => true
  | (_, v) :: rest => isInRange v && entriesInRange rest

end

def record? (names : List String) : Value → Option (String → Option Value)
  | .table _ entries =>
    if entriesInRange (entries.filter fun e => ¬ names.any (·.toList = e.1)) then
      some fun name => Entries.get? name.toList entries
    else none
  | .array _ items =>
    some fun name => ((names.zip items).find? (·.1 = name)).map (·.2)
  | .moment => some fun _ => none
  | _ => none

def format : Format Value where
  text
    | .string t => some t
    | _ => none
  flag
    | .boolean b => some b
    | _ => none
  version
    | .integer n =>
      n.bind fun n => if 0 ≤ n ∧ n.toNat < UInt32.size then some n.toNat.toUInt32 else none
    | _ => none
  list
    | .array _ items => some items
    | _ => none
  optional v := some (some v)
  record := record?
  pair
    | .array _ (v :: w :: _) => some (v, w)
    | _ => none
  form
    | .table _ [(name, v)] => some (name, v)
    | _ => none

end Value

def config? (s : Text) : Option Config := do
  Config.read Value.format (.table .header (← Document.ofText? s))

end Relayout.Toml
