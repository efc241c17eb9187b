import Relayout.Yaml.Token

/-!
# The nodes of a document

A document is a tree of scalars, sequences and mappings, some of which are named by anchors and
referred to by aliases. Where a node may be missing an empty scalar stands for it.
-/

namespace Relayout.Yaml

structure Properties where
  anchor : Option Text
  tag : Option Text
  deriving DecidableEq

def Properties.none : Properties := ⟨.none, .none⟩

inductive Node
  | scalar (properties : Properties) (style : Style) (text : Text)
  | sequence (properties : Properties) (items : List Node)
  | mapping (properties : Properties) (entries : List (Node × Node))
  | alias (name : Text)

namespace Node

def absent : Node := .scalar .none .plain []

abbrev Handles := List (Text × Text)

def defaultHandles : Handles :=
  [(['!'], ['!']), (['!', '!'], "tag:yaml.org,2002:".toList)]

def resolve? (handles : Handles) (tag : Tag) : Option Text :=
  if tag.handle = [] then some tag.suffix
  else (handles.find? (·.1 = tag.handle)).map fun h => h.2 ++ tag.suffix

/-- An anchor and a tag in either order, and the tokens after them. -/
def readProperties? (handles : Handles) : List Token → Option (Properties × List Token)
  | .anchor a :: .tag t :: ts | .tag t :: .anchor a :: ts =>
    (resolve? handles t).map fun tag => (⟨some a, some tag⟩, ts)
  | .anchor a :: ts => some (⟨some a, none⟩, ts)
  | .tag t :: ts => (resolve? handles t).map fun tag => (⟨none, some tag⟩, ts)
  | ts => some (.none, ts)

/-- A tag that says nothing does not belong to a scalar. -/
def ofScalar (p : Properties) (style : Style) (text : Text) : Node :=
  .scalar { p with tag := p.tag.filter (· ≠ ['!']) } style text

theorem length_of_readProperties {handles : Handles} {ts rest : List Token} {p : Properties}
    (h : readProperties? handles ts = some (p, rest)) : rest.length ≤ ts.length := by
  unfold readProperties? at h
  split at h
  all_goals simp at h
  all_goals grind

/-- The tokens that are left after some of `ts` were read. -/
def fewer? (ts rest : List Token) : Option { r : List Token // r.length < ts.length } :=
  if h : rest.length < ts.length then some ⟨rest, h⟩ else none

def atOneOf (stops : List Token) : List Token → Bool
  | [] => false
  | t :: _ => stops.contains t

def blockStops : List Token := [.key, .value, .blockEnd]

def flowStops (ending : Token) : List Token := [.flowEntry, ending]

def absent? (p : Properties) (rest : List Token) : Option (Node × List Token) :=
  if p = .none then none else some (.scalar p .plain [], rest)

/-- The tokens from the next item of a flow collection on, or from its end. -/
def afterComma? (ending : Token) (first : Bool) : List Token → Option (List Token)
  | [] => if first then some [] else none
  | t :: ts =>
    if t = ending ∨ first then some (t :: ts) else if t = .flowEntry then some ts else none

theorem length_of_afterComma {ending : Token} {first : Bool} {ts rest : List Token}
    (h : afterComma? ending first ts = some rest) : rest.length ≤ ts.length := by
  unfold afterComma? at h
  grind

mutual

/-- Reads a node. Block collections may stand only where `block` says so, and a sequence that is
not indented further than its key only where `indentless` does. -/
def read? (handles : Handles) (block indentless : Bool) (ts : List Token) :
    Option (Node × List Token) :=
  match ts with
  | .alias name :: rest => some (.alias name, rest)
  | ts =>
    match h : readProperties? handles ts with
    | none => none
    | some (p, rest) =>
      have := length_of_readProperties h
      match rest with
      | .scalar style text :: rest => some (ofScalar p style text, rest)
      | .flowSequenceStart :: rest =>
        (flowItems? handles true rest).map fun (items, r) => (.sequence p items, r)
      | .flowMappingStart :: rest =>
        (flowEntries? handles true rest).map fun (entries, r) => (.mapping p entries, r)
      | .blockSequenceStart :: rest =>
        if block then (blockItems? handles rest).map fun (items, r) => (.sequence p items, r)
        else absent? p (.blockSequenceStart :: rest)
      | .blockMappingStart :: rest =>
        if block then (blockEntries? handles rest).map fun (entries, r) => (.mapping p entries, r)
        else absent? p (.blockMappingStart :: rest)
      | .blockEntry :: rest =>
        if indentless then
          (indentlessItems? handles (.blockEntry :: rest)).map fun (items, r) =>
            (.sequence p items, r)
        else absent? p (.blockEntry :: rest)
      | rest => absent? p rest
termination_by 3 * ts.length + 1
decreasing_by all_goals grind

def blockItems? (handles : Handles) (ts : List Token) : Option (List Node × List Token) :=
  match ts with
  | .blockEnd :: rest => some ([], rest)
  | .blockEntry :: rest => do
    let (item, left) ←
      if atOneOf [.blockEntry, .blockEnd] rest then some (absent, rest)
      else read? handles true false rest
    let ⟨left, _⟩ ← fewer? (.blockEntry :: rest) left
    let (items, left) ← blockItems? handles left
    return (item :: items, left)
  | _ => none
termination_by 3 * ts.length
decreasing_by all_goals grind

def indentlessItems? (handles : Handles) (ts : List Token) : Option (List Node × List Token) :=
  match ts with
  | .blockEntry :: rest => do
    let (item, left) ←
      if atOneOf (.blockEntry :: blockStops) rest then some (absent, rest)
      else read? handles true false rest
    let ⟨left, _⟩ ← fewer? (.blockEntry :: rest) left
    let (items, left) ← indentlessItems? handles left
    return (item :: items, left)
  | ts => some ([], ts)
termination_by 3 * ts.length
decreasing_by all_goals grind

def blockEntries? (handles : Handles) (ts : List Token) :
    Option (List (Node × Node) × List Token) :=
  match ts with
  | .blockEnd :: rest => some ([], rest)
  | .key :: rest => do
    let (key, left) ←
      if atOneOf blockStops rest then some (absent, rest) else read? handles true true rest
    let ⟨left, _⟩ ← fewer? (.key :: rest) left
    let (value, left) ← blockValue? handles left
    let ⟨left, _⟩ ← fewer? (.key :: rest) left
    let (entries, left) ← blockEntries? handles left
    return ((key, value) :: entries, left)
  | _ => none
termination_by 3 * ts.length
decreasing_by all_goals grind

def blockValue? (handles : Handles) (ts : List Token) : Option (Node × List Token) :=
  match ts with
  | .value :: rest =>
    if atOneOf blockStops rest then some (absent, rest) else read? handles true true rest
  | ts => some (absent, ts)
termination_by 3 * ts.length
decreasing_by all_goals grind

def flowItems? (handles : Handles) (first : Bool) (ts : List Token) :
    Option (List Node × List Token) :=
  match h : afterComma? .flowSequenceEnd first ts with
  | none => none
  | some (.flowSequenceEnd :: rest) => some ([], rest)
  | some (.key :: rest) => do
    have := length_of_afterComma h
    let (key, left) ←
      if atOneOf (.value :: flowStops .flowSequenceEnd) rest then some (absent, rest.drop 1)
      else read? handles false false rest
    let ⟨left, _⟩ ← fewer? ts left
    let (value, left) ← flowValue? handles .flowSequenceEnd left
    let ⟨left, _⟩ ← fewer? ts left
    let (items, left) ← flowItems? handles false left
    return (.mapping .none [(key, value)] :: items, left)
  | some rest => do
    have := length_of_afterComma h
    let (item, left) ← read? handles false false rest
    let ⟨left, _⟩ ← fewer? ts left
    let (items, left) ← flowItems? handles false left
    return (item :: items, left)
termination_by 3 * ts.length + 2
decreasing_by all_goals grind

def flowEntries? (handles : Handles) (first : Bool) (ts : List Token) :
    Option (List (Node × Node) × List Token) :=
  match h : afterComma? .flowMappingEnd first ts with
  | none => none
  | some (.flowMappingEnd :: rest) => some ([], rest)
  | some (.key :: rest) => do
    have := length_of_afterComma h
    let (key, left) ←
      if atOneOf (.value :: flowStops .flowMappingEnd) rest then some (absent, rest)
      else read? handles false false rest
    let ⟨left, _⟩ ← fewer? ts left
    let (value, left) ← flowValue? handles .flowMappingEnd left
    let ⟨left, _⟩ ← fewer? ts left
    let (entries, left) ← flowEntries? handles false left
    return ((key, value) :: entries, left)
  | some rest => do
    have := length_of_afterComma h
    let (key, left) ← read? handles false false rest
    let ⟨left, _⟩ ← fewer? ts left
    let (entries, left) ← flowEntries? handles false left
    return ((key, absent) :: entries, left)
termination_by 3 * ts.length + 2
decreasing_by all_goals grind

def flowValue? (handles : Handles) (ending : Token) (ts : List Token) :
    Option (Node × List Token) :=
  match ts with
  | .value :: rest =>
    if atOneOf (flowStops ending) rest then some (absent, rest)
    else read? handles false false rest
  | ts => some (absent, ts)
termination_by 3 * ts.length
decreasing_by all_goals grind

end

end Node

end Relayout.Yaml
