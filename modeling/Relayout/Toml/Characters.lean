import Relayout.Text.Hex

/-!
# Characters of TOML texts

Blanks, line ends and comments, in none of which control characters may stand.
-/

namespace Relayout.Toml

def isBlank (c : Char) : Bool := c = ' ' || c = '\t'

/-- Whether a character may stand in a comment or between quotes. -/
def isPrintable (c : Char) : Bool := c = '\t' || (0x20 ≤ c.toNat && c.toNat ≠ 0x7F)

def isBare (c : Char) : Bool := c.isAlphanum || c = '-' || c = '_'

def skipBlanks (s : Text) : Text := s.dropWhile isBlank

def afterLineEnd? : Text → Option Text
  | '\n' :: s => some s
  | '\r' :: '\n' :: s => some s
  | _ => none

def afterComment? : Text → Option Text
  | '#' :: s =>
    let rest := s.dropWhile isPrintable
    if rest = [] ∨ (afterLineEnd? rest).isSome then some rest else none
  | s => some s

def skipSpace? (inComment : Bool) : Text → Option Text
  | [] => some []
  | '\r' :: '\n' :: s => skipSpace? false s
  | c :: s =>
    if c = '\n' then skipSpace? false s
    else if inComment then if isPrintable c then skipSpace? true s else none
    else if isBlank c then skipSpace? false s
    else if c = '#' then skipSpace? true s
    else some (c :: s)

/-- The text from the next line on, where nothing but a comment is left in this one. -/
def nextLine? (s : Text) : Option Text := do
  let rest ← afterComment? (skipBlanks s)
  if rest = [] then return [] else afterLineEnd? rest

end Relayout.Toml
