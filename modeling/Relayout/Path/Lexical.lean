import Relayout.Text

/-!
# Resolving `.` and `..` in a text

Pieces are read from left to right onto a stack. A `..` takes the last name away; where there is
none it is kept in a relative path and dropped at the root.
-/

namespace Relayout.Lexical

/-- One piece read onto the stack, whose first element is the last name. -/
def push (rooted : Bool) (stack : List Text) (piece : Text) : List Text :=
  if piece = [] ∨ piece = ['.'] then stack
  else if piece = ['.', '.'] then
    match stack with
    | [] => if rooted then [] else [piece]
    | last :: rest =>
      if last = ['.', '.'] then if rooted then stack else piece :: stack else rest
  else piece :: stack

def resolve (rooted : Bool) (pieces : List Text) : List Text :=
  (pieces.foldl (push rooted) []).reverse

/-- The text of resolved pieces; a relative path without any is `.`. -/
def render (rooted : Bool) (pieces : List Text) : Text :=
  match rooted, pieces with
  | false, [] => ['.']
  | false, ps => Text.joined '/' ps
  | true, ps => '/' :: Text.joined '/' ps

def join (rooted : Bool) (dirs : List Text) (base : Text) : Text :=
  render rooted (resolve rooted (dirs.flatMap (Text.pieces '/') ++ Text.pieces '/' base))

end Relayout.Lexical
