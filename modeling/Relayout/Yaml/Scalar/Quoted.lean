import Relayout.Yaml.Scalar.Folding

/-!
# Quoted scalars

Between single quotes only the quote itself is written specially, twice. Between double quotes a
backslash begins an escape; before a line break it joins the lines without a space.
-/

namespace Relayout.Yaml.Quoted

def singleWord : Text → Text × Text
  | '\'' :: '\'' :: s => let (w, r) := singleWord s; ('\'' :: w, r)
  | '\'' :: s => ([], '\'' :: s)
  | c :: s => if isSpace c then ([], c :: s) else let (w, r) := singleWord s; (c :: w, r)
  | [] => ([], [])

def readSingle? (atLineStart : Bool) (s : Text) : Option (Text × Text) :=
  if atLineStart && atDocumentMarker s then none
  else
    let (word, rest) := singleWord s
    match rest with
    | [] => none
    | '\'' :: rest => some (word, rest)
    | rest => do
      let gap ← Gap.read? 0 1 rest
      if gap.rest.length < s.length then
        let (more, rest) ← readSingle? (gap.column = 0) gap.rest
        return (word ++ gap.text ++ more, rest)
      else none
termination_by s.length

def escaped? : Char → Option Char
  | '0' => some '\x00'
  | 'a' => some '\x07'
  | 'b' => some '\x08'
  | 't' | '\t' => some '\t'
  | 'n' => some '\n'
  | 'v' => some '\x0b'
  | 'f' => some '\x0c'
  | 'r' => some '\r'
  | 'e' => some '\x1b'
  | ' ' => some ' '
  | '"' => some '"'
  | '/' => some '/'
  | '\\' => some '\\'
  | 'N' => some '\x85'
  | '_' => some '\xa0'
  | 'L' => some '\u2028'
  | 'P' => some '\u2029'
  | _ => none

def digitCount? : Char → Option Nat
  | 'x' => some 2
  | 'u' => some 4
  | 'U' => some 8
  | _ => none

def readEscape? : Text → Option (Char × Text)
  | [] => none
  | c :: s =>
    match escaped? c with
    | some d => some (d, s)
    | none => do
      let (n, rest) ← Text.hexNumber? (← digitCount? c) 0 s
      if n.isValidChar then return (Char.ofNat n, rest) else none

inductive Ending
  /-- A blank, a break, the closing quote or the end of the document. -/
  | plain
  | joined

/-- The characters up to what ends them; `fuel` bounds their number. -/
def doubleWord? : Nat → Text → Option (Text × Ending × Text)
  | 0, _ => none
  | _ + 1, [] => some ([], .plain, [])
  | fuel + 1, c :: s =>
    if c = '"' || isSpace c then some ([], .plain, c :: s)
    else if c = '\\' then
      match readBreak? s with
      | some (_, rest) => some ([], .joined, rest)
      | none => do
        let (d, rest) ← readEscape? s
        let (w, r) ← doubleWord? fuel rest
        return (d :: w, r)
    else (doubleWord? fuel s).map fun (w, r) => (c :: w, r)

def readDouble? (atLineStart : Bool) (s : Text) : Option (Text × Text) :=
  if atLineStart && atDocumentMarker s then none
  else do
    let (word, ending, rest) ← doubleWord? (s.length + 1) s
    match ending, rest with
    | .plain, [] => none
    | _, '"' :: rest => some (word, rest)
    | .plain, rest =>
      let gap ← Gap.read? 0 1 rest
      if gap.rest.length < s.length then
        let (more, rest) ← readDouble? (gap.column = 0) gap.rest
        return (word ++ gap.text ++ more, rest)
      else none
    | .joined, rest =>
      let (breaks, column, rest) ← Gap.readBreaks 0 0 rest
      if rest.length < s.length then
        let (more, rest) ← readDouble? (column = 0) rest
        return (word ++ breaks.flatten ++ more, rest)
      else none
termination_by s.length

end Relayout.Yaml.Quoted
