import Relayout.Journal

/-!
# Consoles

What a program says to its user: lines, notices among them, and complaints.
-/

namespace Relayout

class Console (m : Type → Type) where
  printLine : String → m Unit
  complain : String → m Unit

export Console (printLine complain)

/-- A character in a notice, written out if it could control the terminal. -/
def Notice.escape (c : Char) : String :=
  let hex := String.ofList (Nat.toDigits 16 c.toNat)
  if c = '\x1b' ∨ c = '\x7f' then "\\x" ++ hex
  else if c = '\x07' ∨ c = '\x08' ∨ c = '\x0c' then "\\x0" ++ hex
  else if 0x80 ≤ c.toNat ∧ c.toNat ≤ 0x9F then "\\u\x7b" ++ hex ++ "\x7d"
  else c.toString

/-- The line for a notice. Details are for verbose programs only. -/
def Notice.line? (verbose : Bool) (n : Notice) : Option String :=
  let text := String.join (n.text.toList.map escape)
  if ¬ n.isDetail then some ("INFO " ++ text)
  else if verbose then some ("DEBUG " ++ text)
  else none

end Relayout
