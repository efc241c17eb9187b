import Relayout.Fault
import Relayout.Glob.Braces
import Relayout.Glob.Match

/-!
# Selecting paths

An include pattern and a list of exclude patterns select the paths that some alternative of the
first accepts and no alternative of the others does. No pattern accepts a path with strays.
-/

namespace Relayout.Glob

def patterns (pattern : Text) : Except Fault (List Pattern) :=
  (expand pattern).mapM fun alternative =>
    (Pattern.ofText alternative).mapError (Fault.invalidPattern pattern)

def Pattern.acceptsPath (pattern : Pattern) (p : Path) : Bool := p.text?.any pattern.accepts

structure Selection where
  included : List Pattern
  excluded : List Pattern

namespace Selection

def ofPatterns (included : Text) (excluded : List Text) : Except Fault Selection := do
  let included ← patterns included
  let excluded ← excluded.mapM patterns
  return { included, excluded := excluded.flatten }

def accepts (s : Selection) (relative : Path) : Bool :=
  s.included.any (·.acceptsPath relative) && !s.excluded.any (·.acceptsPath relative)

end Selection

end Relayout.Glob
