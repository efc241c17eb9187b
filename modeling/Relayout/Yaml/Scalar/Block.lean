import Relayout.Yaml.Scalar.Folding

/-!
# Block scalars

A block scalar holds the lines that are indented as far as its first one, or as far as its header
says. A literal one keeps its line breaks; a folded one joins lines that do not begin with a blank.
The header also says what becomes of the breaks at the end.
-/

namespace Relayout.Yaml.Block

inductive Chomping
  | strip
  | clip
  | keep
  deriving DecidableEq

structure Header where
  chomping : Chomping
  /-- How much further than its parent the scalar is indented, if that is written. -/
  increment : Option Nat

def chomping? : Text → Option (Chomping × Text)
  | '+' :: s => some (.keep, s)
  | '-' :: s => some (.strip, s)
  | _ => none

def increment? : Text → Option (Option Nat × Text)
  | [] => some (none, [])
  | c :: s =>
    if c.isDigit then
      if c = '0' then none else some (some (c.toNat - 48), s)
    else some (none, c :: s)

def marks? (s : Text) : Option (Header × Text) :=
  match chomping? s with
  | some (chomping, s) => do
    let (increment, s) ← increment? s
    return (⟨chomping, increment⟩, s)
  | none => do
    let (increment, rest) ← increment? s
    if increment.isNone then return (⟨.clip, none⟩, s)
    match chomping? rest with
    | some (chomping, rest) => return (⟨chomping, increment⟩, rest)
    | none => return (⟨.clip, increment⟩, rest)

/-- A header up to the end of its line, where a comment may stand. -/
def header? (s : Text) : Option (Header × Text) := do
  let (header, s) ← marks? s
  let s := s.dropWhile isBlank
  let s := if atOneOf ['#'] s then s.dropWhile fun c => ¬ isBreak c else s
  if atBreak s then
    match readBreak? s with
    | some (_, s) => return (header, s)
    | none => return (header, s)
  else none

structure Lead where
  breaks : List Text
  widest : Nat
  column : Nat
  rest : Text

/-- Reads empty lines and indentation, as far as `indent` if that is known and not zero. A tab in
the indentation is refused. -/
def readLead? (indent column widest : Nat) : Text → Option Lead
  | ' ' :: s =>
    if indent = 0 ∨ column < indent then readLead? indent (column + 1) widest s
    else some ⟨[], max widest column, column, ' ' :: s⟩
  | '\t' :: s =>
    if indent = 0 ∨ column < indent then none
    else some ⟨[], max widest column, column, '\t' :: s⟩
  | '\r' :: '\n' :: s =>
    (readLead? indent 0 (max widest column) s).map fun l => { l with breaks := ['\n'] :: l.breaks }
  | c :: s =>
    if isBreak c then
      let b := if c = '\u2028' || c = '\u2029' then [c] else ['\n']
      (readLead? indent 0 (max widest column) s).map fun l => { l with breaks := b :: l.breaks }
    else some ⟨[], max widest column, column, c :: s⟩
  | [] => some ⟨[], max widest column, column, []⟩

def joint (literal : Bool) (lineBreak : Text) (breaks : List Text) (blankBefore blankAfter : Bool) :
    Text :=
  if ¬ literal ∧ lineBreak = ['\n'] ∧ ¬ blankBefore ∧ ¬ blankAfter then
    if breaks = [] then [' '] else breaks.flatten
  else lineBreak ++ breaks.flatten

/-- Reads lines with this indentation. `lineBreak` ended the line before, which began with a blank
if `blankBefore` says so; `breaks` are the empty lines since. -/
def readLines? (literal : Bool) (chomping : Chomping) (indent : Nat) (lineBreak : Text)
    (blankBefore : Bool) (breaks : List Text) (column : Nat) (s : Text) : Option (Text × Text) :=
  if column = indent ∧ s ≠ [] then do
    let blank := atOneOf [' ', '\t'] s
    let line := s.takeWhile fun c => ¬ isBreak c
    let rest := s.dropWhile fun c => ¬ isBreak c
    let (next, rest) := (readBreak? rest).getD ([], rest)
    let lead ← readLead? indent 0 0 rest
    if lead.rest.length < s.length then
      let (more, rest) ←
        readLines? literal chomping indent next blank lead.breaks lead.column lead.rest
      return (joint literal lineBreak breaks blankBefore blank ++ line ++ more, rest)
    else none
  else
    match chomping with
    | .strip => some ([], s)
    | .clip => some (lineBreak, s)
    | .keep => some (lineBreak ++ breaks.flatten, s)
termination_by s.length

/-- Reads a scalar after its indicator. `parent` is the column of the block it stands in. -/
def read? (literal : Bool) (parent : Option Nat) (s : Text) : Option (Text × Text) := do
  let (header, s) ← header? s
  let least := parent.elim 0 (· + 1)
  let known := header.increment.elim 0 (parent.getD 0 + ·)
  let lead ← readLead? known 0 0 s
  let indent := if known = 0 then max lead.widest (max least 1) else known
  readLines? literal header.chomping indent [] false lead.breaks lead.column lead.rest

end Relayout.Yaml.Block
