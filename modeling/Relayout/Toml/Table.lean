import Relayout.Toml.Value

/-!
# Definitions in tables

A key defines one value, once. A dotted key makes the tables on its way and may go on in those that
dotted keys have made. A header makes the tables on its way as well, goes on in any table but an
inline one and in the last table of an array of tables, and defines its own table once, unless that
was only implied before.
-/

namespace Relayout.Toml.Table

/-- Changes the table at the end of a path of keys, which begins in a table of this origin. Tables
on the way that are missing are made. -/
def change? (byDots : Bool) (f : Origin → Entries → Option Entries) :
    List Text → Origin → Entries → Option Entries
  | [], origin, entries => f origin entries
  | key :: path, _, entries =>
    match entries.get? key with
    | none => do
      let made : Origin := if byDots then .dotted else .implied
      return entries.set key (.table made (← change? byDots f path made []))
    | some (.array true items) =>
      match items.getLast? with
      | some (.table origin last) => do
        let last ← change? byDots f path origin last
        return entries.set key (.array true (items.dropLast ++ [.table origin last]))
      | _ => none
    | some (.table origin inner) =>
      if origin = .inline ∨ (byDots ∧ origin = .header) then none
      else do return entries.set key (.table origin (← change? byDots f path origin inner))
    | some _ => none

def add? (key : Text) (v : Value) (entries : Entries) : Option Entries :=
  if (entries.get? key).isSome then none else some (entries ++ [(key, v)])

def define? (key : List Text) (v : Value) (origin : Origin) (entries : Entries) :
    Option Entries :=
  match key.getLast? with
  | none => none
  | some last =>
    let path := key.dropLast
    change? true (fun made inner =>
      if path ≠ [] ∧ made ≠ .dotted then none else add? last v inner) path origin entries

def begin? (key : Text) (entries : Entries) : Option Entries :=
  match entries.get? key with
  | none => some (entries ++ [(key, .table .header [])])
  | some (.table .implied inner) => some (entries.set key (.table .header inner))
  | some _ => none

def beginNext? (key : Text) (entries : Entries) : Option Entries :=
  match entries.get? key with
  | none => some (entries ++ [(key, .array true [.table .header []])])
  | some (.array true items) =>
    some (entries.set key (.array true (items ++ [.table .header []])))
  | some _ => none

end Relayout.Toml.Table
