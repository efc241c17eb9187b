import Relayout.Yaml.Scalar.Block
import Relayout.Yaml.Scalar.Plain
import Relayout.Yaml.Scalar.Quoted
import Relayout.Yaml.Tag

/-!
# The tokens of a document

Tokens are read one after the other. Indentation opens and closes block collections. Whether a
token begins a key shows only at the colon after it, so for every open collection the place of the
token that may be a key is kept, and the token that marks a key is put in front of it later. Such a
key lies in one line and is at most 1024 characters long.
-/

namespace Relayout.Yaml

/-- A place in the token sequence where a key may begin. -/
structure KeyPlace where
  required : Bool
  number : Nat
  place : Position

structure Tokenizer where
  rest : Text
  /-- The length of `rest`. -/
  left : Nat
  place : Position
  flow : Nat
  /-- The columns of the open block collections, innermost first. -/
  indents : List Nat
  keyAllowed : Bool
  /-- The key that may have begun in each open flow collection and outside, innermost first. -/
  keys : List (Option KeyPlace)
  /-- The tokens read so far, last first. -/
  tokens : List Token
  count : Nat

namespace Tokenizer

def start (s : Text) : Tokenizer := ⟨s, s.length, .start, 0, [], true, [none], [], 0⟩

def inFlow (t : Tokenizer) : Bool := t.flow > 0

def parent? (t : Tokenizer) : Option Nat := t.indents.head?

/-- Goes on at `rest`, which ends the text that is left. -/
def goTo (t : Tokenizer) (rest : Text) : Tokenizer :=
  let left := rest.length
  { t with rest, left, place := t.place.after (t.rest.take (t.left - left)) }

def skip (n : Nat) (t : Tokenizer) : Tokenizer := t.goTo (t.rest.drop n)

def emit (token : Token) (t : Tokenizer) : Tokenizer :=
  { t with tokens := token :: t.tokens, count := t.count + 1 }

def insertAt (number : Nat) (token : Token) (t : Tokenizer) : Tokenizer :=
  { t with tokens := t.tokens.insertIdx (t.count - number) token, count := t.count + 1 }

def allowKey (allowed : Bool) (t : Tokenizer) : Tokenizer := { t with keyAllowed := allowed }

def closeBeyond (column : Nat) (t : Tokenizer) : Tokenizer :=
  if t.inFlow then t
  else
    let closed := t.indents.takeWhile (column < ·)
    { t with
      indents := t.indents.drop closed.length
      tokens := closed.map (fun _ => .blockEnd) ++ t.tokens
      count := t.count + closed.length }

def closeAll (t : Tokenizer) : Tokenizer :=
  if t.inFlow then t
  else
    { t with
      indents := []
      tokens := t.indents.map (fun _ => .blockEnd) ++ t.tokens
      count := t.count + t.indents.length }

/-- Opens a block collection at `column` unless one as deep is open. Its token is put behind the
first `number` ones. -/
def openBlock (column number : Nat) (token : Token) (t : Tokenizer) : Tokenizer :=
  if t.inFlow ∨ t.parent?.any (column ≤ ·) then t
  else insertAt number token { t with indents := column :: t.indents }

/-- Gives up the key that may have begun, unless it is required. -/
def dropKey? (t : Tokenizer) : Option Tokenizer :=
  match t.keys with
  | some k :: rest => if k.required then none else some { t with keys := none :: rest }
  | _ => some t

def isStale (now : Position) (k : KeyPlace) : Bool :=
  k.place.line < now.line || k.place.index + 1024 < now.index

/-- Gives up the keys that have become too long, none of which may be required. -/
def dropStale? (t : Tokenizer) : Option Tokenizer := do
  let keys ← t.keys.mapM fun key =>
    match key with
    | none => some none
    | some k => if isStale t.place k then if k.required then none else some none else some (some k)
  return { t with keys }

def saveKey? (t : Tokenizer) : Option Tokenizer :=
  if t.keyAllowed then do
    let required := ¬ t.inFlow ∧ t.parent? = some t.place.column
    let t ← t.dropKey?
    return { t with keys := some ⟨required, t.count, t.place⟩ :: t.keys.drop 1 }
  else some t

/-- The text from the next token on, and whether a key may begin there. A line may begin with a
byte order mark. -/
def skipBlank (inFlow : Bool) : (atLineStart inComment allowed : Bool) → Text → Text × Bool
  | _, _, allowed, [] => ([], allowed)
  | atLineStart, inComment, allowed, c :: s =>
    if isBreak c then skipBlank inFlow true false (allowed || !inFlow) s
    else if inComment then skipBlank inFlow false true allowed s
    else if c = '\ufeff' && atLineStart then skipBlank inFlow false false allowed s
    else if c = '#' then skipBlank inFlow false true allowed s
    else if c = ' ' || (c = '\t' && (inFlow || !allowed)) then
      skipBlank inFlow false false allowed s
    else (c :: s, allowed)

def toNext? (t : Tokenizer) : Option Tokenizer := do
  let (rest, allowed) := skipBlank t.inFlow (t.place.column = 0) false t.keyAllowed t.rest
  let t ← ((t.goTo rest).allowKey allowed).dropStale?
  return t.closeBeyond t.place.column

def openFlow? (token : Token) (t : Tokenizer) : Option Tokenizer := do
  let t ← t.saveKey?
  return emit token <| skip 1
    { t with flow := t.flow + 1, keys := none :: t.keys, keyAllowed := true }

def closeFlow? (token : Token) (t : Tokenizer) : Option Tokenizer := do
  let t ← t.dropKey?
  let t := if t.inFlow then { t with flow := t.flow - 1, keys := t.keys.drop 1 } else t
  return (t.allowKey false).skip 1 |>.emit token

def flowEntry? (t : Tokenizer) : Option Tokenizer := do
  return ((← t.dropKey?).allowKey true).skip 1 |>.emit .flowEntry

/-- Opens a block collection for an indicator, which must stand where a key could. -/
def openAtIndicator? (token : Token) (t : Tokenizer) : Option Tokenizer :=
  if t.inFlow then some t
  else if t.keyAllowed then some (t.openBlock t.place.column t.count token)
  else none

def blockEntry? (t : Tokenizer) : Option Tokenizer := do
  let t ← (← t.openAtIndicator? .blockSequenceStart).dropKey?
  return (t.allowKey true).skip 1 |>.emit .blockEntry

def key? (t : Tokenizer) : Option Tokenizer := do
  let t ← (← t.openAtIndicator? .blockMappingStart).dropKey?
  return (t.allowKey (!t.inFlow)).skip 1 |>.emit .key

def value? (t : Tokenizer) : Option Tokenizer := do
  let t ←
    match t.keys with
    | some k :: rest =>
      let t := insertAt k.number .key { t with keys := none :: rest, keyAllowed := false }
      some (t.openBlock k.place.column k.number .blockMappingStart)
    | _ => (t.openAtIndicator? .blockMappingStart).map fun t => t.allowKey (!t.inFlow)
  return t.skip 1 |>.emit .value

def directive? (t : Tokenizer) : Option Tokenizer := do
  let t ← t.closeAll.dropKey?
  let (token, rest) ← readDirective? (t.rest.drop 1)
  return (t.allowKey false).goTo rest |>.emit token

def documentMarker? (t : Tokenizer) : Option Tokenizer := do
  let t ← t.closeAll.dropKey?
  let token := if atOneOf ['-'] t.rest then .documentStart else .documentEnd
  return (t.allowKey false).skip 3 |>.emit token

def content? (read : Text → Option (Token × Text)) (t : Tokenizer) : Option Tokenizer := do
  let t ← t.saveKey?
  let (token, rest) ← read t.rest
  return (t.allowKey false).goTo rest |>.emit token

def blockScalar? (style : Style) (t : Tokenizer) : Option Tokenizer := do
  let t ← t.dropKey?
  let (text, rest) ← Block.read? (style = .literal) t.parent? (t.rest.drop 1)
  return (t.allowKey true).goTo rest |>.emit (.scalar style text)

def plainScalar? (t : Tokenizer) : Option Tokenizer := do
  let t ← t.saveKey?
  let scalar ← Plain.read? t.inFlow (t.parent?.elim 0 (· + 1)) t.place.column t.rest
  return (t.allowKey scalar.broken).goTo scalar.rest |>.emit (.scalar .plain scalar.text)

def beginsPlain (inFlow : Bool) (c : Char) (s : Text) : Bool :=
  (!isSpace c && !(['-', '?', ':', ',', '[', ']', '\x7b', '\x7d', '#', '&', '*', '!', '|', '>',
      '\'', '"', '%', '@', '`'].contains c))
    || (c = '-' && !atOneOf [' ', '\t'] s)
    || (!inFlow && (c = '?' || c = ':') && !atSpace s)

def token? (t : Tokenizer) : Option Tokenizer :=
  match t.rest with
  | [] => none
  | c :: s =>
    let flow := t.inFlow
    if t.place.column = 0 ∧ c = '%' then t.directive?
    else if t.place.column = 0 ∧ atDocumentMarker t.rest then t.documentMarker?
    else if c = '[' then t.openFlow? .flowSequenceStart
    else if c = '\x7b' then t.openFlow? .flowMappingStart
    else if c = ']' then t.closeFlow? .flowSequenceEnd
    else if c = '\x7d' then t.closeFlow? .flowMappingEnd
    else if c = ',' then t.flowEntry?
    else if c = '-' ∧ atSpace s then t.blockEntry?
    else if c = '?' ∧ (flow ∨ atSpace s) then t.key?
    else if c = ':' ∧ (flow ∨ atSpace s) then t.value?
    else if c = '*' then t.content? fun s => (readName? (s.drop 1)).map fun (n, r) => (.alias n, r)
    else if c = '&' then t.content? fun s => (readName? (s.drop 1)).map fun (n, r) => (.anchor n, r)
    else if c = '!' then t.content? fun s => (Tag.read? flow s).map fun (n, r) => (.tag n, r)
    else if c = '|' ∧ ¬ flow then t.blockScalar? .literal
    else if c = '>' ∧ ¬ flow then t.blockScalar? .folded
    else if c = '\'' then
      t.content? fun s => (Quoted.readSingle? false (s.drop 1)).map fun (w, r) =>
        (.scalar .singleQuoted w, r)
    else if c = '"' then
      t.content? fun s => (Quoted.readDouble? false (s.drop 1)).map fun (w, r) =>
        (.scalar .doubleQuoted w, r)
    else if beginsPlain flow c s then t.plainScalar?
    else none

def finish? (t : Tokenizer) : Option (List Token) := do
  let next ← t.toNext?
  if next.rest = [] then
    return (← next.closeAll.dropKey?).tokens.reverse
  else
    let read ← next.token?
    if read.left < t.left then finish? read else none
termination_by t.left

end Tokenizer

def tokens? (s : Text) : Option (List Token) :=
  if s.all isAllowed then (Tokenizer.start s).finish? else none

end Relayout.Yaml
