import Relayout.Text

/-!
# JSON values

Values as they are read and written, and their text over several lines with two spaces a level.
-/

namespace Relayout

inductive Json
  | null
  | bool (value : Bool)
  | integer (value : Int)
  /-- A number written with a point: `value` divided by ten to the power of `places`. -/
  | decimal (value : Int) (places : Nat)
  | string (text : Text)
  | array (items : List Json)
  | object (fields : List (String × Json))
  deriving Inhabited

namespace Json

def field? (name : String) (fields : List (String × Json)) : Option Json :=
  (fields.find? (·.1 = name)).map (·.2)

def escape (c : Char) : String :=
  match c with
  | '"' => "\\\""
  | '\\' => "\\\\"
  | '\n' => "\\n"
  | '\r' => "\\r"
  | '\t' => "\\t"
  | '\x08' => "\\b"
  | '\x0c' => "\\f"
  | c =>
    if c.toNat < 32 then
      "\\u00" ++ String.ofList [Nat.digitChar (c.toNat / 16), Nat.digitChar (c.toNat % 16)]
    else c.toString

def quote (t : Text) : String := "\"" ++ String.join (t.map escape) ++ "\""

def decimalText (value : Int) (places : Nat) : String :=
  let digits := Nat.toDigits 10 value.natAbs
  let padded := List.replicate (places + 1 - digits.length) '0' ++ digits
  let cut := padded.length - places
  (if value < 0 then "-" else "") ++ String.ofList (padded.take cut) ++ "."
    ++ String.ofList (padded.drop cut)

def indent (depth : Nat) : String := "\n" ++ String.ofList (List.replicate (2 * depth) ' ')

mutual

def prettyAt (depth : Nat) : Json → String
  | null => "null"
  | bool true => "true"
  | bool false => "false"
  | integer n => toString n
  | decimal n places => decimalText n places
  | string t => quote t
  | array [] => "[]"
  | array items => "[" ++ prettyItems (depth + 1) items ++ indent depth ++ "]"
  | object [] => "\x7b\x7d"
  | object fields => "\x7b" ++ prettyFields (depth + 1) fields ++ indent depth ++ "\x7d"

def prettyItems (depth : Nat) : List Json → String
  | [] => ""
  | [item] => indent depth ++ prettyAt depth item
  | item :: rest => indent depth ++ prettyAt depth item ++ "," ++ prettyItems depth rest

def prettyFields (depth : Nat) : List (String × Json) → String
  | [] => ""
  | [(name, value)] => indent depth ++ quote name.toList ++ ": " ++ prettyAt depth value
  | (name, value) :: rest =>
    indent depth ++ quote name.toList ++ ": " ++ prettyAt depth value ++ ","
      ++ prettyFields depth rest

end

def pretty (v : Json) : String := prettyAt 0 v

end Json

end Relayout
