import Relayout.Command.Basic
import Relayout.Glob.Pattern
import Relayout.SystemError

/-!
# What can go wrong

Every way in which loading a document, listing files or carrying out commands can fail, with what
is known about it, and the text in which it is reported.
-/

namespace Relayout

inductive Operation
  | delete
  | removeMoved
  | create
  | createDirectory
  | open
  | openForWriting
  | copyTo
  | finishWriting
  | read
  | readDirectory
  | stat
  | resolve
  deriving DecidableEq

def Operation.words : Operation → String
  | delete => "delete"
  | removeMoved => "remove moved file"
  | create => "create"
  | createDirectory => "create directory"
  | .open => "open"
  | openForWriting => "open for writing"
  | copyTo => "copy to"
  | finishWriting => "finish writing"
  | read => "read"
  | readDirectory => "read directory"
  | stat => "stat"
  | resolve => "resolve"

inductive Language
  | yaml
  | toml
  deriving DecidableEq

def Language.name : Language → String
  | yaml => "YAML"
  | toml => "TOML"

inductive Fault
  | unsupportedVersion (version : UInt32)
  | posixOnly
  | conflictingRuleSets
  | invalidPattern (pattern : Text) (error : Glob.PatternError)
  | io (operation : Operation) (path : Path) (error : SystemError)
  | sameSourceAndTarget (kind : Command.Kind) (path : Path)
  | unreadable (language : Language)
  | unsupportedTransformFile (path : Path)
  /-- The test at this position, counted from one, asked for another command. -/
  | testFailed (position : Nat) (expected : Command) (actual : List Command)
  deriving DecidableEq

namespace Fault

/-- The text of the failure behind a fault, for the faults that report another one. -/
def cause? : Fault → Option String
  | invalidPattern _ e => some e.message
  | io _ _ e => some e.message
  | unreadable l => some ("the text is no filemod in " ++ l.name)
  | _ => none

def message : Fault → String
  | unsupportedVersion v =>
    "This filemod engine supports only version 1 of filemods (got version " ++ toString v ++ ")"
  | posixOnly => "This filemod engine supports only POSIX-compatible operating systems"
  | conflictingRuleSets => "You cannot declare both replace and copy rules"
  | invalidPattern p e => "Invalid glob pattern '" ++ String.ofList p ++ "': " ++ e.message
  | io operation p e => "Failed to " ++ operation.words ++ " " ++ p.toString ++ ": " ++ e.message
  | sameSourceAndTarget kind p => "Cannot " ++ kind.word ++ " " ++ p.toString ++ " onto itself"
  | unreadable l =>
    "Failed to parse " ++ l.name ++ " filemod: " ++ ((unreadable l).cause?).getD ""
  | unsupportedTransformFile p =>
    "Unsupported transform file (expected .yml, .yaml or .toml): " ++ p.toString
  | testFailed position expected actual =>
    "Filemod test #" ++ toString position ++ " failed: expected " ++ expected.describe ++ ", got "
      ++ match actual with
        | [] => "no commands"
        | _ => String.intercalate ", " (actual.map Command.describe)

end Fault

end Relayout
