import Relayout.Text

/-!
# TOML values

A table remembers how it came about, which decides what may still be added to it.
-/

namespace Relayout.Toml

inductive Origin
  | header
  /-- By the header of a table inside it. -/
  | implied
  | dotted
  | inline
  deriving DecidableEq

inductive Value
  | string (text : Text)
  /-- A number written without a fraction, if what is written makes one. -/
  | integer (value : Option Int)
  | float (inRange : Bool)
  | boolean (value : Bool)
  | moment
  /-- `ofTables` if the array was made by headers of its tables. -/
  | array (ofTables : Bool) (items : List Value)
  | table (origin : Origin) (entries : List (Text × Value))

abbrev Entries := List (Text × Value)

namespace Entries

def get? (key : Text) (entries : Entries) : Option Value := (entries.find? (·.1 = key)).map (·.2)

def set (key : Text) (v : Value) (entries : Entries) : Entries :=
  if entries.any (·.1 = key) then entries.map fun e => if e.1 = key then (key, v) else e
  else entries ++ [(key, v)]

end Entries

end Relayout.Toml
