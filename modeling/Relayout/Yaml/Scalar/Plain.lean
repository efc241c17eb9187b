import Relayout.Yaml.Scalar.Folding

/-!
# Plain scalars

A plain scalar goes on over words and lines until a comment, a value indicator, a flow indicator
inside a flow collection, a document marker, or a line that is not indented enough.
-/

namespace Relayout.Yaml.Plain

/-- The characters up to the next blank, or up to what ends the scalar. A value indicator before a
flow indicator is refused inside flow collections. -/
def word? (inFlow : Bool) : Text → Option (Text × Text)
  | [] => some ([], [])
  | c :: s =>
    if isSpace c then some ([], c :: s)
    else if inFlow && c = ':' && atOneOf [',', '?', '[', ']', '\x7b', '\x7d'] s then none
    else if c = ':' && atSpace s then some ([], c :: s)
    else if inFlow && [',', '[', ']', '\x7b', '\x7d'].contains c then some ([], c :: s)
    else (word? inFlow s).map fun (w, r) => (c :: w, r)

structure Scalar where
  text : Text
  broken : Bool
  rest : Text

/-- Reads on after `gap`, which becomes part of the scalar if a word follows. -/
def readFrom? (inFlow : Bool) (indent : Nat) (gap : Text) (broken : Bool) (column : Nat)
    (s : Text) : Option Scalar :=
  if (column = 0 && atDocumentMarker s) || atOneOf ['#'] s then some ⟨[], broken, s⟩
  else do
    let (word, rest) ← word? inFlow s
    if word = [] then return ⟨[], broken, rest⟩
    if ¬ atSpace rest ∨ rest = [] then return ⟨gap ++ word, false, rest⟩
    let next ← Gap.read? indent (column + word.length) rest
    if ¬ inFlow ∧ next.column < indent then return ⟨gap ++ word, next.isBroken, next.rest⟩
    if next.rest.length < s.length then
      let more ← readFrom? inFlow indent next.text next.isBroken next.column next.rest
      return { more with text := gap ++ word ++ more.text }
    else none
termination_by s.length

def read? (inFlow : Bool) (indent column : Nat) (s : Text) : Option Scalar :=
  readFrom? inFlow indent [] false column s

end Relayout.Yaml.Plain
