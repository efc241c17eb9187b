import Relayout.Command.Basic

/-!
# Configurations

What a document says, before anything is made of it: which files it is about, what to do with
them, and which command it expects for single files.
-/

namespace Relayout

inductive RuleSpec
  | replaceDirectoryName (source target : Text)
  | appendDirectoryName (name : Text) (fileRootNot : Option Text)
  | replaceFileRoot (fileRoot : Text)
  deriving DecidableEq

structure DeleteSpec where
  fileRoot : Option (List Text)
  deriving DecidableEq

structure Config where
  version : UInt32
  posix : Bool
  includePattern : Text
  excludePatterns : List Text
  deleteRules : Option DeleteSpec
  replaceRules : Option (List RuleSpec)
  copyRules : Option (List RuleSpec)
  /-- The commands expected for the files they are about. -/
  tests : List Command
  deriving DecidableEq

end Relayout
