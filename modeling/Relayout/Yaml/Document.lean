import Relayout.Yaml.Node
import Relayout.Yaml.Tokens

/-!
# Documents

A text holds one document, which may be preceded by directives and followed by end markers. An
alias refers to the last node before it with its name. Each anchor takes as its number the count of
different names before it, and where two nodes come to have one number the later one is meant.
-/

namespace Relayout.Yaml

/-- The content of a node, with references instead of names. -/
inductive Value
  | scalar (tag : Option Text) (style : Style) (text : Text)
  | sequence (tag : Option Text) (items : List Value)
  | mapping (tag : Option Text) (entries : List (Value × Value))
  | reference (number : Nat)

structure Document where
  root : Value
  /-- In the order of the text; the last with a number counts. -/
  targets : List (Nat × Value)

namespace Document

def isDirective : Token → Bool
  | .version .. | .tagHandle .. => true
  | _ => false

/-- Reads directives: what they say about handles, and the tokens after them. -/
def readDirectives? (versionSeen : Bool) (handles : Node.Handles) :
    List Token → Option (Node.Handles × List Token)
  | .version major minor :: ts =>
    if versionSeen ∨ major ≠ 1 ∨ (minor ≠ 1 ∧ minor ≠ 2) then none
    else readDirectives? true handles ts
  | .tagHandle handle meaning :: ts =>
    if handles.any (·.1 = handle) then none
    else readDirectives? versionSeen (handles ++ [(handle, meaning)]) ts
  | ts => some (handles ++ Node.defaultHandles, ts)

def readContent? (handles : Node.Handles) : List Token → Option (Node × List Token)
  | [] => some (.absent, [])
  | t :: ts =>
    if isDirective t ∨ t = .documentStart ∨ t = .documentEnd then some (.absent, t :: ts)
    else Node.read? handles true false (t :: ts)

def root? (ts : List Token) : Option Node := do
  let t :: _ := ts | none
  let (node, rest) ←
    if isDirective t ∨ t = .documentStart then do
      let (handles, rest) ← readDirectives? false [] ts
      match rest with
      | .documentStart :: rest => readContent? handles rest
      | _ => none
    else Node.read? Node.defaultHandles true false ts
  if rest.all (· = .documentEnd) then return node else none

abbrev Names := List (Text × Nat)

def name (names : Names) (anchor : Text) : Names :=
  if names.any (·.1 = anchor) then
    names.map fun n => if n.1 = anchor then (anchor, names.length) else n
  else names ++ [(anchor, names.length)]

def register (names : Names) : Option Text → Option Nat × Names
  | none => (none, names)
  | some anchor => (some names.length, name names anchor)

def target (number : Option Nat) (v : Value) : List (Nat × Value) :=
  match number with
  | none => []
  | some n => [(n, v)]

mutual

/-- Puts references in the place of aliases, each of which must refer to a name before it. -/
def refer? (names : Names) : Node → Option (Value × Names × List (Nat × Value))
  | .alias a => (names.find? (·.1 = a)).map fun n => (.reference n.2, names, [])
  | .scalar p style text =>
    let (number, names) := register names p.anchor
    let v := Value.scalar p.tag style text
    some (v, names, target number v)
  | .sequence p items =>
    let (number, names) := register names p.anchor
    (referAll? names items).map fun (items, names, targets) =>
      let v := Value.sequence p.tag items
      (v, names, target number v ++ targets)
  | .mapping p entries =>
    let (number, names) := register names p.anchor
    (referEntries? names entries).map fun (entries, names, targets) =>
      let v := Value.mapping p.tag entries
      (v, names, target number v ++ targets)

def referAll? (names : Names) : List Node → Option (List Value × Names × List (Nat × Value))
  | [] => some ([], names, [])
  | n :: ns => do
    let (v, names, targets) ← refer? names n
    let (vs, names, others) ← referAll? names ns
    return (v :: vs, names, targets ++ others)

def referEntries? (names : Names) :
    List (Node × Node) → Option (List (Value × Value) × Names × List (Nat × Value))
  | [] => some ([], names, [])
  | (k, n) :: rest => do
    let (key, names, targets) ← refer? names k
    let (v, names, more) ← refer? names n
    let (entries, names, others) ← referEntries? names rest
    return ((key, v) :: entries, names, targets ++ more ++ others)

end

def ofText? (s : Text) : Option Document := do
  let (root, _, targets) ← refer? [] (← root? (← tokens? s))
  return { root, targets }

/-- What is meant by a value: a reference means its target. -/
def meaning (d : Document) : Value → Value
  | .reference n => ((d.targets.reverse.find? (·.1 = n)).map (·.2)).getD (.reference n)
  | v => v

end Document

end Relayout.Yaml
