import Relayout.Text.Hex

/-!
# Characters of YAML texts

The classes that the token grammar is stated with, and line breaks. A carriage return and a line
feed together are one break. All breaks but the two separators of Unicode are read as line feeds.
-/

namespace Relayout.Yaml

def isAllowed (c : Char) : Bool :=
  let n := c.toNat
  n = 0x09 || n = 0x0A || n = 0x0D || (0x20 ≤ n && n ≤ 0x7E) || n = 0x85
    || (0xA0 ≤ n && n ≤ 0xD7FF) || (0xE000 ≤ n && n ≤ 0xFFFD) || 0x10000 ≤ n

def isBreak (c : Char) : Bool :=
  c = '\n' || c = '\r' || c = '\x85' || c = '\u2028' || c = '\u2029'

def isBlank (c : Char) : Bool := c = ' ' || c = '\t'

def isSpace (c : Char) : Bool := isBlank c || isBreak c

def isWord (c : Char) : Bool := c.isAlphanum || c = '-' || c = '_'

/-- Whether a text ends here or goes on with a blank or a break. -/
def atSpace : Text → Bool
  | [] => true
  | c :: _ => isSpace c

def atBreak : Text → Bool
  | [] => true
  | c :: _ => isBreak c

def atOneOf (cs : List Char) : Text → Bool
  | [] => false
  | c :: _ => cs.contains c

/-- A break at the front of a text, as it is read, and the text after it. -/
def readBreak? : Text → Option (Text × Text)
  | '\r' :: '\n' :: s => some (['\n'], s)
  | c :: s =>
    if c = '\u2028' || c = '\u2029' then some ([c], s)
    else if isBreak c then some (['\n'], s)
    else none
  | [] => none

def atDocumentMarker : Text → Bool
  | '-' :: '-' :: '-' :: s | '.' :: '.' :: '.' :: s => atSpace s
  | _ => false

/-- A place in a document: the characters and lines before it, and those before it in its line. -/
structure Position where
  index : Nat
  line : Nat
  column : Nat

namespace Position

def start : Position := ⟨0, 0, 0⟩

def after (p : Position) : Text → Position
  | [] => p
  | '\r' :: '\n' :: s => after ⟨p.index + 2, p.line + 1, 0⟩ s
  | c :: s =>
    if isBreak c then after ⟨p.index + 1, p.line + 1, 0⟩ s
    else after ⟨p.index + 1, p.line, p.column + 1⟩ s

end Position

end Relayout.Yaml
