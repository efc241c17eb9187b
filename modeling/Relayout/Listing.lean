import Relayout.Glob.Selection
import Relayout.Path.Order
import Relayout.Path.Parts

/-!
# Listing files

A listing takes the paths below a root that a selection accepts, compared by what is left of them
below the root, and gives them in order without repetition.
-/

namespace Relayout

/-- Gives the files that an include pattern and exclude patterns select. -/
abbrev Lister (m : Type → Type) := Text → List Text → m (Except Fault (List Path))

namespace Listing

def below (root : Path) (s : Glob.Selection) (paths : List Path) : List Path :=
  Path.sorted (paths.filter fun p => (root.below? p).any s.accepts)

def ofPaths (root : Path) (paths : List Path) (included : Text) (excluded : List Text) :
    Except Fault (List Path) :=
  (Glob.Selection.ofPatterns included excluded).map fun s => below root s paths

def lister {m : Type → Type} [Monad m] (root : Path) (paths : List Path) : Lister m :=
  fun included excluded => pure (ofPaths root paths included excluded)

/-- Makes a root absolute, from a working directory, and resolves it. -/
def resolveRoot (workingDirectory root : Path) : Except Fault Path :=
  if root.isEmpty then .error (.io .resolve root .emptyPath)
  else .ok (root.absolute workingDirectory).normalize

end Listing

end Relayout
