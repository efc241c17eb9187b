import Relayout.Toml.Characters

/-!
# Strings of TOML

Double quotes hold escapes, single ones hold everything as it is. Three quotes hold several lines,
of which a line end right after the opening ones does not count; up to two quotes may stand right
before the closing ones.
-/

namespace Relayout.Toml.Quoted

def escaped? : Char → Option Char
  | 'b' => some '\x08'
  | 't' => some '\t'
  | 'n' => some '\n'
  | 'f' => some '\x0c'
  | 'r' => some '\r'
  | 'e' => some '\x1b'
  | '"' => some '"'
  | '\\' => some '\\'
  | _ => none

def digitCount? : Char → Option Nat
  | 'x' => some 2
  | 'u' => some 4
  | 'U' => some 8
  | _ => none

def readEscape? : Text → Option (Char × Text)
  | [] => none
  | c :: s =>
    match escaped? c with
    | some d => some (d, s)
    | none => do
      let (n, rest) ← Text.hexNumber? (← digitCount? c) 0 s
      if n.isValidChar then return (Char.ofNat n, rest) else none

/-- Reads a string in one line after its opening quote; `fuel` bounds its length. -/
def readBasic? : Nat → Text → Option (Text × Text)
  | 0, _ => none
  | _ + 1, [] => none
  | fuel + 1, c :: s =>
    if c = '"' then some ([], s)
    else if c = '\\' then do
      let (d, rest) ← readEscape? s
      let (t, rest) ← readBasic? fuel rest
      return (d :: t, rest)
    else if isPrintable c then (readBasic? fuel s).map fun (t, rest) => (c :: t, rest)
    else none

def readLiteral? : Text → Option (Text × Text)
  | [] => none
  | c :: s =>
    if c = '\'' then some ([], s)
    else if isPrintable c then (readLiteral? s).map fun (t, rest) => (c :: t, rest)
    else none

/-- The quotes that belong to a string before its closing ones, and the text after these. -/
def closing? (quote : Char) (s : Text) : Option (Text × Text) :=
  let quotes := s.takeWhile (· = quote)
  if quotes.length < 3 then none
  else
    let kept := min (quotes.length - 3) 2
    some (List.replicate kept quote, s.drop (kept + 3))

def dropLines : Text → Text
  | '\r' :: '\n' :: s => dropLines s
  | c :: s => if c = '\n' || isBlank c then dropLines s else c :: s
  | [] => []

def readLines? (quote : Char) : Nat → Text → Option (Text × Text)
  | 0, _ => none
  | fuel + 1, s =>
    match closing? quote s with
    | some done => some done
    | none =>
      match s with
      | [] => none
      | '\r' :: '\n' :: s =>
        (readLines? quote fuel s).map fun (t, rest) => ('\r' :: '\n' :: t, rest)
      | c :: s =>
        if c = '\\' ∧ quote = '"' then
          match afterLineEnd? (skipBlanks s) with
          | some rest => readLines? quote fuel (dropLines rest)
          | none => do
            let (d, rest) ← readEscape? s
            let (t, rest) ← readLines? quote fuel rest
            return (d :: t, rest)
        else if c = '\n' ∨ isPrintable c then
          (readLines? quote fuel s).map fun (t, rest) => (c :: t, rest)
        else none

def readMultiline? (quote : Char) (s : Text) : Option (Text × Text) :=
  let body := (afterLineEnd? s).getD s
  readLines? quote (body.length + 1) body

/-- Reads a string that may be a key. -/
def readSingle? : Text → Option (Text × Text)
  | '"' :: s => readBasic? (s.length + 1) s
  | '\'' :: s => readLiteral? s
  | _ => none

def read? : Text → Option (Text × Text)
  | '"' :: '"' :: '"' :: s => readMultiline? '"' s
  | '\'' :: '\'' :: '\'' :: s => readMultiline? '\'' s
  | s => readSingle? s

end Relayout.Toml.Quoted
