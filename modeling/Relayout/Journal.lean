import Relayout.Command.Basic

/-!
# Notices

What is noted while a transform is loaded, tested or carried out, and the lines that tell of it.
-/

namespace Relayout

structure Summary where
  deleted : Nat
  moved : Nat
  copied : Nat
  created : Nat
  deriving DecidableEq

namespace Summary

def empty : Summary := ⟨0, 0, 0, 0⟩

def total (s : Summary) : Nat := s.deleted + s.moved + s.copied + s.created

def record (s : Summary) : Command.Kind → Summary
  | .delete => { s with deleted := s.deleted + 1 }
  | .move => { s with moved := s.moved + 1 }
  | .copy => { s with copied := s.copied + 1 }
  | .create => { s with created := s.created + 1 }

end Summary

inductive Notice
  | loaded (path : Path)
  | unguardedAppend (name : Text)
  | compiled (delete replace copy : Nat)
  | discovered (count : Nat) (root : Path) (included : Text)
  | planned (commands files : Nat)
  | deleting (path : Path)
  | moving (source target : Path)
  | copying (source target : Path)
  | creating (path : Path)
  | copied (bytes : Nat) (target : Path)
  | executed (count : Nat)
  | testPassed (position : Nat) (expected : Command)
  | applied (summary : Summary)

namespace Notice

/-- Whether the notice is only for readers who asked for every detail. -/
def isDetail : Notice → Bool
  | deleting _ | moving _ _ | copying _ _ | creating _ | applied _ => false
  | _ => true

def text : Notice → String
  | loaded p => "Loaded filemod document from " ++ p.toString
  | unguardedAppend name =>
    "Dropping appendDirectoryName '" ++ String.ofList name ++ "' without a fileRootNot guard"
  | compiled d r c =>
    "Compiled filemod: " ++ toString d ++ " delete, " ++ toString r ++ " replace, " ++ toString c
      ++ " copy rules"
  | discovered n root included =>
    "Discovered " ++ toString n ++ " files under " ++ root.toString ++ " matching "
      ++ String.ofList included
  | planned n files => toString n ++ " commands for " ++ toString files ++ " discovered files"
  | deleting p => "Deleting " ++ p.toString
  | moving p q => "Moving " ++ p.toString ++ " -> " ++ q.toString
  | copying p q => "Copying " ++ p.toString ++ " -> " ++ q.toString
  | creating p => "Creating " ++ p.toString
  | copied n q => "Copied " ++ toString n ++ " bytes to " ++ q.toString
  | executed n => "Executed " ++ toString n ++ " commands"
  | testPassed i c => "Filemod test #" ++ toString i ++ " passed: " ++ c.describe
  | applied s =>
    "Applied " ++ toString s.total ++ " commands (" ++ toString s.deleted ++ " deleted, "
      ++ toString s.moved ++ " moved, " ++ toString s.copied ++ " copied, "
      ++ toString s.created ++ " created)"

end Notice

class Journal (m : Type → Type) where
  note : Notice → m Unit

export Journal (note)

/-- A computation without effects keeps no journal. -/
instance : Journal Id := ⟨fun _ => ()⟩

instance {m : Type → Type} [Monad m] [Journal m] {ε : Type} : Journal (ExceptT ε m) :=
  ⟨fun n => liftM (note n : m Unit)⟩

end Relayout
