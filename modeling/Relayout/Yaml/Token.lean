import Relayout.Text

/-!
# Tokens of YAML

Block collections are bracketed by tokens that the indentation gives, so that a document is a
plain sequence of tokens.
-/

namespace Relayout.Yaml

inductive Style
  | plain
  | singleQuoted
  | doubleQuoted
  | literal
  | folded
  deriving DecidableEq

/-- A tag as written: what its handle stands for comes before the suffix. Each octet is given as the
character of its number. -/
structure Tag where
  handle : Text
  suffix : Text
  deriving DecidableEq

inductive Token
  | version (major minor : Nat)
  | tagHandle (handle meaning : Text)
  | documentStart
  | documentEnd
  | blockSequenceStart
  | blockMappingStart
  | blockEnd
  | flowSequenceStart
  | flowSequenceEnd
  | flowMappingStart
  | flowMappingEnd
  | blockEntry
  | flowEntry
  | key
  | value
  | alias (name : Text)
  | anchor (name : Text)
  | tag (tag : Tag)
  | scalar (style : Style) (text : Text)
  deriving DecidableEq

end Relayout.Yaml
