import Relayout.Yaml.Characters
import Relayout.Yaml.Token

/-!
# Names, tags and directives

Anchors and aliases are named by words. A tag is written in full between angle brackets, or as a
suffix after a handle. It is a sequence of octets, which need not be the encoding of a text, and an
octet of zero ends it. A directive stands on a line of its own before a document.
-/

namespace Relayout.Yaml

def readName? (s : Text) : Option (Text × Text) :=
  let name := s.takeWhile isWord
  let rest := s.dropWhile isWord
  if name ≠ [] ∧ (atSpace rest ∨ atOneOf ['?', ':', ',', ']', '\x7d', '%', '@', '`'] rest) then
    some (name, rest)
  else none

namespace Tag

def isUriChar (inBrackets : Bool) (c : Char) : Bool :=
  isWord c
    || [';', '/', '?', ':', '@', '&', '=', '+', '$', '.', '!', '~', '*', '\'', '(', ')'].contains c
    || (inBrackets && [',', '[', ']'].contains c)

def readOctet? : Text → Option (Nat × Text)
  | '%' :: a :: b :: s => do return (16 * (← Text.hexValue? a) + (← Text.hexValue? b), s)
  | _ => none

def followers? (octet : Nat) : Option Nat :=
  if octet < 0x80 then some 0
  else if 0xC0 ≤ octet ∧ octet < 0xE0 then some 1
  else if 0xE0 ≤ octet ∧ octet < 0xF0 then some 2
  else if 0xF0 ≤ octet ∧ octet < 0xF8 then some 3
  else none

/-- Octets inside a character, each given as the character of its number. -/
def readFollowers? : Nat → Text → Option (Text × Text)
  | 0, s => some ([], s)
  | n + 1, s => do
    let (octet, s) ← readOctet? s
    if 0x80 ≤ octet ∧ octet < 0xC0 then
      let (more, s) ← readFollowers? n s
      return (Char.ofNat octet :: more, s)
    else none

/-- The rest of a tag, whose escaped characters are given octet by octet; `fuel` bounds its
length. -/
def readUri? (inBrackets : Bool) : Nat → Text → Option (Text × Text)
  | 0, _ => none
  | _ + 1, [] => some ([], [])
  | fuel + 1, c :: s =>
    if c = '%' then do
      let (octet, rest) ← readOctet? (c :: s)
      let (followers, rest) ← readFollowers? (← followers? octet) rest
      let (more, rest) ← readUri? inBrackets fuel rest
      return (Char.ofNat octet :: followers ++ more, rest)
    else if isUriChar inBrackets c then do
      let (more, rest) ← readUri? inBrackets fuel s
      return (c :: more, rest)
    else some ([], c :: s)

def uri? (inBrackets : Bool) (s : Text) : Option (Text × Text) :=
  readUri? inBrackets (s.length + 1) s

def readHandle? : Text → Option (Text × Text)
  | '!' :: s =>
    let word := s.takeWhile isWord
    match s.dropWhile isWord with
    | '!' :: rest => some ('!' :: word ++ ['!'], rest)
    | rest => some ('!' :: word, rest)
  | _ => none

def upToZero (octets : Text) : Text := octets.takeWhile (· ≠ '\x00')

def isHandle (handle : Text) : Bool := handle.length > 1 && handle.getLast? = some '!'

/-- A tag and the text after it, up to which nothing was checked. -/
def readBody? : Text → Option (Tag × Text)
  | '!' :: '<' :: s => do
    let (suffix, s) ← uri? true s
    match suffix, s with
    | [], _ => none
    | suffix, '>' :: s => return (⟨[], upToZero suffix⟩, s)
    | _, _ => none
  | s => do
    let (handle, s) ← readHandle? s
    let (suffix, s) ← uri? false s
    if isHandle handle then
      if suffix = [] then none else return (⟨handle, upToZero suffix⟩, s)
    else
      let suffix := upToZero (handle.drop 1 ++ suffix)
      if suffix = [] then return (⟨[], ['!']⟩, s) else return (⟨['!'], suffix⟩, s)

/-- A tag, which ends at a blank or in a flow collection at a comma. -/
def read? (inFlow : Bool) (s : Text) : Option (Tag × Text) := do
  let (tag, s) ← readBody? s
  if (inFlow && atOneOf [','] s) || atSpace s then return (tag, s) else none

end Tag

/-- A version number of at most nine digits. -/
def readVersionNumber? (s : Text) : Option (Nat × Text) :=
  let digits := s.takeWhile Char.isDigit
  if digits = [] ∨ digits.length > 9 then none
  else some (digits.foldl (fun n c => 10 * n + (c.toNat - 48)) 0, s.dropWhile Char.isDigit)

def skipBlanks (s : Text) : Text := s.dropWhile isBlank

def readVersion? (s : Text) : Option (Token × Text) := do
  let (major, s) ← readVersionNumber? (skipBlanks s)
  match s with
  | '.' :: s => do
    let (minor, s) ← readVersionNumber? s
    return (.version major minor, s)
  | _ => none

def readTagHandle? (s : Text) : Option (Token × Text) := do
  let (handle, s) ← Tag.readHandle? (skipBlanks s)
  if handle = ['!'] ∨ Tag.isHandle handle then
    if ¬ atOneOf [' ', '\t'] s then none
    let (meaning, s) ← Tag.uri? true (skipBlanks s)
    if meaning = [] ∨ ¬ atSpace s then none
    return (.tagHandle handle (Tag.upToZero meaning), s)
  else none

def readDirective? (s : Text) : Option (Token × Text) := do
  let name := s.takeWhile isWord
  let rest := s.dropWhile isWord
  if ¬ atSpace rest then none
  let (token, rest) ←
    if name = "YAML".toList then readVersion? rest
    else if name = "TAG".toList then readTagHandle? rest
    else none
  let rest := skipBlanks rest
  let rest := if atOneOf ['#'] rest then rest.dropWhile fun c => ¬ isBreak c else rest
  if atBreak rest then return (token, ((readBreak? rest).map (·.2)).getD rest) else none

end Relayout.Yaml
