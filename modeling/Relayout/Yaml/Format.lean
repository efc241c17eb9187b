import Relayout.Document.Schema
import Relayout.Text.Utf8
import Relayout.Yaml.Document

/-!
# Configurations in YAML

Any scalar is a text, whatever it looks like. Numbers and truth values are plain scalars in the
notations of the core schema. An empty plain scalar is an empty list or record. Record fields are
named by scalars, of which unknown ones are ignored. A form is a mapping with one entry and no tag
of the document's own.
-/

namespace Relayout.Yaml

def coreTag (name : String) : Text := ("tag:yaml.org,2002:" ++ name).toList

def digitsValue? (base : Nat) (s : Text) : Option Nat :=
  if s = [] then none
  else s.foldlM (fun n c => do
    let d ← Text.hexValue? c
    if d < base then some (base * n + d) else none) 0

/-- The number after a mark for its base, or in decimals without leading zeros. -/
def natural? (s : Text) : Option Nat :=
  let s := if s.head? = some '+' then s.drop 1 else s
  match s with
  | '0' :: 'x' :: digits => digitsValue? 16 digits
  | '0' :: 'o' :: digits => digitsValue? 8 digits
  | '0' :: 'b' :: digits => digitsValue? 2 digits
  | '0' :: _ :: _ => none
  | digits => digitsValue? 10 digits

def boolean? (s : Text) : Option Bool :=
  if ["true", "True", "TRUE"].any (·.toList = s) then some true
  else if ["false", "False", "FALSE"].any (·.toList = s) then some false
  else none

def isNull (s : Text) : Bool := ["null", "Null", "NULL", "~"].any (·.toList = s)

/-- Whether a scalar may be something else than a text: a plain one, or a literal one that is
tagged so. -/
def isTyped (tag : Option Text) (style : Style) (core : String) : Bool :=
  style = .plain || (style = .literal && tag = some (coreTag core))

/-- Whether a tag is one of the document's own: an exclamation mark before octets that encode a
text. -/
def isLocal : Text → Bool
  | '!' :: octets => (Text.ofUtf8? (octets.map fun c => c.toNat.toUInt8)).isSome
  | _ => false

def isEmptyPlain (style : Style) (text : Text) : Bool := style = .plain && text = []

namespace Document

def text? (d : Document) (v : Value) : Option Text :=
  match d.meaning v with
  | .scalar _ _ t => some t
  | _ => none

def flag? (d : Document) (v : Value) : Option Bool :=
  match d.meaning v with
  | .scalar tag style t => if isTyped tag style "bool" then boolean? t else none
  | _ => none

def version? (d : Document) (v : Value) : Option UInt32 :=
  match d.meaning v with
  | .scalar tag style t =>
    if isTyped tag style "int" then
      (natural? t).bind fun n => if n < UInt32.size then some n.toUInt32 else none
    else none
  | _ => none

def list? (d : Document) (v : Value) : Option (List Value) :=
  match d.meaning v with
  | .sequence _ items => some items
  | .scalar _ style t => if isEmptyPlain style t then some [] else none
  | _ => none

def optional? (d : Document) (v : Value) : Option (Option Value) :=
  match d.meaning v with
  | .scalar tag style t =>
    if style ≠ .plain then some (some v)
    else match tag with
      | none => some (if t = [] ∨ isNull t then none else some v)
      | some tag =>
        if tag = coreTag "null" then if isNull t then some none else none
        else some (some v)
  | _ => some (some v)

/-- The entries whose key is one of the names, each name once. -/
def known? (d : Document) (names : List String) :
    List (Value × Value) → Option (List (String × Value))
  | [] => some []
  | (k, v) :: rest => do
    let key := String.ofList (← d.text? k)
    let others ← d.known? names rest
    if names.contains key then
      if others.any (·.1 = key) then none else return (key, v) :: others
    else return others

def record? (d : Document) (names : List String) (v : Value) : Option (String → Option Value) :=
  match d.meaning v with
  | .mapping _ entries =>
    (d.known? names entries).map fun fields name => (fields.find? (·.1 = name)).map (·.2)
  | .scalar _ style t => if isEmptyPlain style t then some fun _ => none else none
  | _ => none

def pair? (d : Document) (v : Value) : Option (Value × Value) :=
  match d.meaning v with
  | .sequence _ [v, w] => some (v, w)
  | _ => none

def form? (d : Document) (v : Value) : Option (Text × Value) :=
  match d.meaning v with
  | .mapping tag [(k, v)] =>
    if tag.any isLocal then none else (d.text? k).map fun name => (name, v)
  | _ => none

def format (d : Document) : Format Value where
  text := d.text?
  flag := d.flag?
  version := d.version?
  list := d.list?
  optional := d.optional?
  record := d.record?
  pair := d.pair?
  form := d.form?

end Document

def config? (s : Text) : Option Config := do
  let d ← Document.ofText? s
  Config.read d.format d.root

end Relayout.Yaml
