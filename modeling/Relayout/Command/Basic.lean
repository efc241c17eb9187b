import Relayout.Path.Basic
import Relayout.Text.Quoted

/-!
# Commands

A command asks for one change to a tree of files. Its written form in a document is the list of
its words: the kind and then one path for `delete` and `create`, two for `move` and `copy`. A path
with strays is written with these replaced.
-/

namespace Relayout

inductive Command
  | delete (path : Path)
  | move (source target : Path)
  | copy (source target : Path)
  | create (path : Path)
  deriving DecidableEq

namespace Command

inductive Kind
  | delete
  | move
  | copy
  | create
  deriving DecidableEq

def Kind.word : Kind → String
  | delete => "delete"
  | move => "move"
  | copy => "copy"
  | create => "create"

def kind : Command → Kind
  | .delete _ => .delete
  | .move _ _ => .move
  | .copy _ _ => .copy
  | .create _ => .create

def describe : Command → String
  | .delete p => "delete " ++ p.toString
  | .create p => "create " ++ p.toString
  | .move p q => "move " ++ p.toString ++ " -> " ++ q.toString
  | .copy p q => "copy " ++ p.toString ++ " -> " ++ q.toString

/-- The file that a command is about. -/
def source : Command → Path
  | .delete p | .create p | .move p _ | .copy p _ => p

/-- Commands of one kind whose paths name the same places. -/
def Same : Command → Command → Prop
  | .delete p, .delete q => p.Same q
  | .create p, .create q => p.Same q
  | .move p q, .move r s => p.Same r ∧ q.Same s
  | .copy p q, .copy r s => p.Same r ∧ q.Same s
  | _, _ => False

instance (c d : Command) : Decidable (Same c d) := by
  unfold Same
  split <;> infer_instance

def words : Command → List Text
  | .delete p => ["delete".toList, p.text]
  | .create p => ["create".toList, p.text]
  | .move p q => ["move".toList, p.text, q.text]
  | .copy p q => ["copy".toList, p.text, q.text]

def ofWords? : List Text → Option Command
  | [kind, p] =>
    if kind = "delete".toList then some (.delete (.ofText p))
    else if kind = "create".toList then some (.create (.ofText p))
    else none
  | [kind, p, q] =>
    if kind = "move".toList then some (.move (.ofText p) (.ofText q))
    else if kind = "copy".toList then some (.copy (.ofText p) (.ofText q))
    else none
  | _ => none

/-- What is said of words that make no command. -/
def wordsMessage (words : List Text) : String :=
  "expected [delete|create, path] or [move|copy, from, to], got "
    ++ String.ofList (Text.quotedList words)

end Command

end Relayout
