import Relayout.Yaml.Characters

/-!
# Line folding

Between two words of a scalar stand blanks or line breaks. Blanks within a line are kept. Where
lines break, blanks around the breaks are dropped, a single break becomes a space, and of several
the first is dropped.
-/

namespace Relayout.Yaml

/-- What stands between two words, and where the text after it begins. -/
structure Gap where
  blanks : Text
  breaks : List Text
  column : Nat
  rest : Text

def foldBreaks (first : Text) (others : List Text) : Text :=
  if first = ['\n'] then
    if others = [] then [' '] else others.flatten
  else first ++ others.flatten

namespace Gap

def isBroken (g : Gap) : Bool := g.breaks ≠ []

def text (g : Gap) : Text :=
  match g.breaks with
  | [] => g.blanks
  | first :: others => foldBreaks first others

/-- Reads the breaks and blanks after a break. A tab before the column `indent` is refused. -/
def readBreaks (indent : Nat) : Nat → Text → Option (List Text × Nat × Text)
  | column, ' ' :: s => readBreaks indent (column + 1) s
  | column, '\t' :: s => if column < indent then none else readBreaks indent (column + 1) s
  | _, '\r' :: '\n' :: s => (readBreaks indent 0 s).map fun (bs, r) => (['\n'] :: bs, r)
  | column, c :: s =>
    if isBreak c then
      let b := if c = '\u2028' || c = '\u2029' then [c] else ['\n']
      (readBreaks indent 0 s).map fun (bs, r) => (b :: bs, r)
    else some ([], column, c :: s)
  | column, [] => some ([], column, [])

def read? (indent column : Nat) (s : Text) : Option Gap :=
  let blanks := s.takeWhile isBlank
  let s := s.dropWhile isBlank
  match readBreak? s with
  | none => some ⟨blanks, [], column + blanks.length, s⟩
  | some (first, s) =>
    (readBreaks indent 0 s).map fun (others, column, rest) =>
      ⟨blanks, first :: others, column, rest⟩

end Gap

end Relayout.Yaml
