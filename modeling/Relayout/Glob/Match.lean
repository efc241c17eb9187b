import Relayout.Glob.Pattern

/-!
# Matching a path against a pattern

A `*` stays inside one component and `**` takes whole components; no wildcard and no set takes a
separator or a dot at the start of a component. Wildcards take as little as they can at first.
Where a single character is asked for and the text has ended, no longer take can help, so the
whole match fails at once.
-/

namespace Relayout.Glob

inductive Outcome
  | matched
  /-- This way of matching fails; a wildcard before it may take more. -/
  | mismatch
  /-- The text ended too early for every way of matching. -/
  | exhausted
  deriving DecidableEq

def Outcome.orElse (o : Outcome) (other : Unit → Outcome) : Outcome :=
  match o with
  | mismatch => other ()
  | o => o

instance : OrElse Outcome := ⟨Outcome.orElse⟩

def Token.takes (atStart : Bool) (c : Char) : Token → Bool
  | .char d => c = d
  | .any => admissible
  | .oneOf set => admissible && set.any (·.contains c)
  | .noneOf set => admissible && !set.any (·.contains c)
  | .star | .components => false
where
  admissible : Bool := c ≠ '/' && !(atStart && c = '.')

/-- Lets a wildcard take characters one by one, trying `rest` on what is left. -/
def sweep (components : Bool) (rest : Bool → Text → Outcome) : Bool → Text → Outcome
  | atStart, [] => rest atStart []
  | atStart, c :: s =>
    if atStart ∧ c = '.' then .mismatch
    else if c = '/' then
      if components then rest true s <|> sweep components rest true s else .mismatch
    else if components then sweep components rest false s
    else rest false s <|> sweep components rest false s

/-- Matches the tokens against a text; `atStart` says whether it begins a component. -/
def matchFrom : Pattern → Bool → Text → Outcome
  | [], _, s => if s = [] then .matched else .mismatch
  | .star :: ts, atStart, s => matchFrom ts atStart s <|> sweep false (matchFrom ts) atStart s
  | .components :: ts, atStart, s => matchFrom ts atStart s <|> sweep true (matchFrom ts) atStart s
  | _ :: _, _, [] => .exhausted
  | t :: ts, atStart, c :: s => if t.takes atStart c then matchFrom ts (c = '/') s else .mismatch

def Pattern.accepts (p : Pattern) (s : Text) : Bool := matchFrom p true s = .matched

end Relayout.Glob
