import Relayout.Path.Parts

/-!
# Path rules

A rule changes the directory names or the file root of a path and never its extension. Rules run
in order, each on what the ones before it left, and the result is joined and resolved at the end.
-/

namespace Relayout

/-- Holds for every file root but one. -/
structure Guard where
  except : Text
  deriving DecidableEq

def Guard.holds (g : Guard) (fileRoot : Text) : Bool := g.except ≠ fileRoot

inductive Appended
  | literal (name : Text)
  /-- The file root as it is when the rule runs. -/
  | fileRoot
  deriving DecidableEq

inductive Rule
  | replaceDir (source target : Text)
  | appendDir (guard : Guard) (name : Appended)
  | replaceFileRoot (fileRoot : Text)
  deriving DecidableEq

structure Deletion where
  fileRoot : Text
  deriving DecidableEq

def Deletion.selects (d : Deletion) (fileRoot : Text) : Bool := d.fileRoot = fileRoot

/-- The rules of a transform. At most one of `replace` and `copy` holds any. -/
structure RuleSets where
  delete : List Deletion
  replace : List Rule
  copy : List Rule
  deriving DecidableEq

def RuleSets.deletes (r : RuleSets) (fileRoot : Text) : Bool :=
  r.delete.any (·.selects fileRoot)

namespace Rule

def apply (p : Parts) : Rule → Parts
  | replaceDir source target =>
    { p with dirs := p.dirs.map fun d => if d = source then target else d }
  | appendDir guard name =>
    if guard.holds p.fileRoot then
      { p with dirs := p.dirs ++ [match name with | .literal n => n | .fileRoot => p.fileRoot] }
    else p
  | replaceFileRoot fileRoot => { p with fileRoot }

def destination (rules : List Rule) (p : Parts) : Text := (rules.foldl apply p).toText

end Rule

end Relayout
