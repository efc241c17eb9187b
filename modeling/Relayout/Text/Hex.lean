import Relayout.Text

/-!
# Hexadecimal digits
-/

namespace Relayout.Text

def hexValue? (c : Char) : Option Nat :=
  if '0' ≤ c ∧ c ≤ '9' then some (c.toNat - 48)
  else if 'a' ≤ c ∧ c ≤ 'f' then some (c.toNat - 87)
  else if 'A' ≤ c ∧ c ≤ 'F' then some (c.toNat - 55)
  else none

/-- The number that goes on from `n` with the first digits of a text, as many as are asked for. -/
def hexNumber? : Nat → Nat → Text → Option (Nat × Text)
  | 0, n, s => some (n, s)
  | _ + 1, _, [] => none
  | count + 1, n, c :: s => do hexNumber? count (16 * n + (← hexValue? c)) s

end Relayout.Text
