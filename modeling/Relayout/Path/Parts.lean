import Relayout.Path.Basic
import Relayout.Path.Lexical

/-!
# The parts of a path that rules work on

A path is taken apart into its root, its directory names, the file root and the extension, and put
together again with `.` and `..` resolved. Taking apart and putting together is normalisation.
-/

namespace Relayout

structure Parts where
  rooted : Bool
  dirs : List Text
  fileRoot : Text
  /-- With its leading dot, or empty. -/
  extension : Text
  deriving DecidableEq

namespace Parts

/-- Cuts a base name before its last dot. A dot in front marks a hidden file, and `..` is no
file name, so neither begins an extension. -/
def cutExtension (base : Text) : Text × Text :=
  match base.reverse.span (· ≠ '.') with
  | (extension, '.' :: c :: root) =>
    if base = ['.', '.'] then (base, []) else ((c :: root).reverse, '.' :: extension.reverse)
  | _ => (base, [])

def ofText (t : Text) : Parts :=
  let names := (Text.pieces '/' t).filter (· ≠ [])
  let (fileRoot, extension) := cutExtension (names.getLast?.getD [])
  { rooted := t.head? = some '/', dirs := names.dropLast, fileRoot, extension }

def base (p : Parts) : Text := p.fileRoot ++ p.extension

def toText (p : Parts) : Text := Lexical.join p.rooted p.dirs p.base

end Parts

namespace Path

def parts (p : Path) : Parts := Parts.ofText p.text

/-- The path with `.` and `..` resolved in its text. What comes out has no strays. -/
def normalize (p : Path) : Path := ofText p.parts.toText

end Path

end Relayout
