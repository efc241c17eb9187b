import Relayout.Text.Utf8

/-!
# Paths and their components

A path is a list of bytes, which need not be those of a text, and is kept as given. Two paths name
the same place when their components agree: repeated and trailing separators and every `.` but a
leading one do not count, `..` does, and names are the same if their bytes are. The bytes of a
parent, an ancestor or a remainder are cut out of those of the path. Where a text is asked for, all
strays are replaced, so two different names may be read alike.
-/

namespace Relayout

structure Path where
  bytes : Bytes
  deriving DecidableEq, Inhabited

namespace Path

@[match_pattern]
abbrev slash : UInt8 := 0x2F

@[match_pattern]
abbrev dot : UInt8 := 0x2E

def ofText (t : Text) : Path := ⟨t.toUtf8⟩

/-- The text of a path, with strays replaced. -/
def text (p : Path) : Text := Text.ofUtf8 p.bytes

/-- The text that a path is written in, if it is one. -/
def text? (p : Path) : Option Text := Text.ofUtf8? p.bytes

inductive Component
  | root
  | here
  | up
  | name (bytes : Bytes)
  deriving DecidableEq

/-- What a piece between separators stands for: empty and `.` pieces stand for nothing. -/
def Component.ofPiece? : Bytes → Option Component
  | [] => none
  | [dot] => none
  | [dot, dot] => some .up
  | piece => some (.name piece)

inductive Head
  | relative
  | here
  | root
  deriving DecidableEq

namespace Head

def bytes : Head → Bytes
  | relative => []
  | here => [dot]
  | root => [slash]

def components : Head → List Component
  | relative => []
  | here => [.here]
  | root => [.root]

end Head

def cut : Path → Head × List Bytes
  | ⟨slash :: s⟩ => (.root, Text.pieces slash s)
  | ⟨[dot]⟩ => (.here, [])
  | ⟨dot :: slash :: s⟩ => (.here, [] :: Text.pieces slash s)
  | ⟨s⟩ => (.relative, Text.pieces slash s)

def components (p : Path) : List Component :=
  p.cut.1.components ++ p.cut.2.filterMap Component.ofPiece?

/-- Two paths that name the same place. -/
def Same (p q : Path) : Prop := p.components = q.components

instance (p q : Path) : Decidable (Same p q) := inferInstanceAs (Decidable (_ = _))

def isAbsolute (p : Path) : Bool := p.cut.1 = .root

def isEmpty (p : Path) : Bool := p.bytes = []

def ofString (s : String) : Path := ofText s.toList

def toString (p : Path) : String := String.ofList p.text

def isIdle (piece : Bytes) : Bool := (Component.ofPiece? piece).isNone

def trimEnd (pieces : List Bytes) : List Bytes :=
  (pieces.reverse.dropWhile isIdle).reverse

def trimStart (pieces : List Bytes) : List Bytes := pieces.dropWhile isIdle

def ofCut (head : Head) (pieces : List Bytes) : Path :=
  ⟨head.bytes ++ Text.joined slash pieces⟩

/-- The paths above the one whose pieces are given in reverse, nearest first. -/
def above (head : Head) : List Bytes → List Path
  | [] => match head with
    | .relative => []
    | .here => [⟨[]⟩]
    | .root => []
  | _ :: rest => ofCut head (trimEnd rest.reverse) :: above head (rest.dropWhile isIdle)
termination_by pieces => pieces.length
decreasing_by
  have := (List.dropWhile_sublist isIdle (l := rest)).length_le
  simp
  omega

/-- The paths that a path lies in, nearest first. A root and the empty path lie in none. -/
def outer (p : Path) : List Path := above p.cut.1 (p.cut.2.reverse.dropWhile isIdle)

def ancestors (p : Path) : List Path := p :: p.outer

def parent? (p : Path) : Option Path := p.outer.head?

/-- What is left of the pieces once the components have been read off their front. -/
def after : List Component → List Bytes → Option (List Bytes)
  | [], pieces => some pieces
  | _ :: _, [] => none
  | c :: cs, piece :: pieces =>
    match Component.ofPiece? piece with
    | none => after (c :: cs) pieces
    | some d => if d = c then after cs pieces else none

def below? (base p : Path) : Option Path :=
  if base.components = [] then some (ofCut p.cut.1 (trimEnd p.cut.2))
  else if base.cut.1 = p.cut.1 then
    (after (base.cut.2.filterMap Component.ofPiece?) p.cut.2).map fun rest =>
      ofCut .relative (trimEnd (trimStart rest))
  else none

def fileName? (p : Path) : Option Bytes :=
  match p.components.getLast? with
  | some (.name n) => some n
  | _ => none

/-- What comes after the last dot of the file name, unless that dot comes first. -/
def extension? (p : Path) : Option Bytes :=
  p.fileName?.bind fun n =>
    match n.reverse.span (· ≠ dot) with
    | (_, []) => none
    | (_, [_]) => none
    | (e, _) => some e.reverse

def entry (dir : Path) (name : Bytes) : Path :=
  if dir.bytes = [] ∨ dir.bytes.getLast? = some slash then ⟨dir.bytes ++ name⟩
  else ⟨dir.bytes ++ slash :: name⟩

/-- What the entries of a path are added to when it is made absolute. Two separators in front, no
more, are not the same as one. -/
def start (p workingDirectory : Path) : Path :=
  if p.isAbsolute then
    if (p.bytes.takeWhile (· = slash)).length = 2 then ⟨[slash, slash]⟩ else ⟨[slash]⟩
  else workingDirectory

/-- The path as it is read in a working directory. A `..` stays, and so does a separator at the
end. -/
def absolute (p workingDirectory : Path) : Path :=
  let path := (p.cut.2.filter (!isIdle ·)).foldl entry (p.start workingDirectory)
  if p.bytes.getLast? = some slash then path.entry [] else path

end Path

end Relayout
