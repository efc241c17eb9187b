import Relayout.Text

/-!
# Glob patterns

A pattern is a list of tokens: characters, `?`, `*`, `**` with the separator after it, and bracket
sets. Reading a pattern either gives its tokens or says at which character it goes wrong.
-/

namespace Relayout.Glob

inductive Interval
  | single (c : Char)
  | range (first last : Char)
  deriving DecidableEq

namespace Interval

def contains : Interval → Char → Bool
  | single d, c => c = d
  | range first last, c => first ≤ c ∧ c ≤ last

/-- The entries written between brackets: `a-z` is a range, any other character is itself. -/
def ofText : Text → List Interval
  | a :: '-' :: b :: s => range a b :: ofText s
  | a :: s => single a :: ofText s
  | [] => []

end Interval

inductive Token
  | char (c : Char)
  | any
  | star
  | components
  | oneOf (set : List Interval)
  | noneOf (set : List Interval)
  deriving DecidableEq

abbrev Pattern := List Token

inductive PatternFault
  | wildcards
  | recursiveWildcards
  | range
  deriving DecidableEq

structure PatternError where
  position : Nat
  fault : PatternFault
  deriving DecidableEq

def PatternFault.message : PatternFault → String
  | wildcards => "wildcards are either regular `*` or recursive `**`"
  | recursiveWildcards => "recursive wildcards must form a single path component"
  | range => "invalid range pattern"

def PatternError.message (e : PatternError) : String :=
  "Pattern syntax error near position " ++ toString e.position ++ ": " ++ e.fault.message

/-- Reads a set after its opening bracket. A closing bracket that comes first is in the set. -/
def readSet : Text → Option (Token × Text)
  | '!' :: c :: s =>
    (Text.cutAt ']' s).map fun (set, rest) => (.noneOf (Interval.ofText (c :: set)), rest)
  | ['!'] => none
  | c :: s => (Text.cutAt ']' s).map fun (set, rest) => (.oneOf (Interval.ofText (c :: set)), rest)
  | [] => none

theorem length_of_readSet {s rest : Text} {t : Token} (h : readSet s = some (t, rest)) :
    rest.length < s.length := by
  unfold readSet at h
  split at h
  all_goals try contradiction
  all_goals
    simp only [Option.map_eq_some_iff, Prod.exists, Prod.mk.injEq] at h
    obtain ⟨a, b, hc, -, rfl⟩ := h
    have := Text.length_of_cutAt hc
    simp
    omega

namespace Pattern

/-- Adds `**`, which does not follow itself except at the very start. -/
def addComponents (tokens : Pattern) : Pattern :=
  if tokens.length > 1 ∧ tokens.getLast? = some .components then tokens else tokens ++ [.components]

/-- Reads on after `tokens`. `last` is the character before `s`, which begins at `position`. -/
def readFrom (tokens : Pattern) (last : Option Char) (position : Nat) (s : Text) :
    Except PatternError Pattern :=
  match s with
  | [] => .ok tokens
  | '?' :: s => readFrom (tokens ++ [.any]) (some '?') (position + 1) s
  | '*' :: '*' :: '*' :: _ => .error ⟨position + 2, .wildcards⟩
  | '*' :: '*' :: s =>
    if last = none ∨ last = some '/' then
      match s with
      | [] => .ok (addComponents tokens)
      | '/' :: s => readFrom (addComponents tokens) (some '/') (position + 3) s
      | _ => .error ⟨position + 2, .recursiveWildcards⟩
    else .error ⟨position - 1, .recursiveWildcards⟩
  | '*' :: s => readFrom (tokens ++ [.star]) (some '*') (position + 1) s
  | '[' :: s =>
    match h : readSet s with
    | some (token, rest) =>
      have := length_of_readSet h
      readFrom (tokens ++ [token]) (some ']') (position + 1 + (s.length - rest.length)) rest
    | none => .error ⟨position, .range⟩
  | c :: s => readFrom (tokens ++ [.char c]) (some c) (position + 1) s
termination_by s.length
decreasing_by all_goals simp_all <;> omega

def ofText (pattern : Text) : Except PatternError Pattern := readFrom [] none 0 pattern

end Pattern

end Relayout.Glob
