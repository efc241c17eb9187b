import Relayout.Text

/-!
# Texts as bytes

The bytes of a text in UTF-8, and what bytes are read as. Reading goes from left to right over all
bytes: a stretch that begins like a character and breaks off, or that cannot begin one, is passed
over as one stray.
-/

namespace Relayout

abbrev Bytes := List UInt8

namespace Text

def toUtf8 (t : Text) : Bytes := t.flatMap String.utf8EncodeChar

def firstChar? (bytes : Bytes) : Option Char :=
  (bytes.take 4).toByteArray.utf8DecodeChar? 0

/-- Whether a byte can come later in a character than first. -/
def isTail (b : UInt8) : Bool := 0x80 ≤ b && b < 0xC0

def isSecond (a b : UInt8) : Bool :=
  if a = 0xE0 then 0xA0 ≤ b && b < 0xC0
  else if a = 0xED then 0x80 ≤ b && b < 0xA0
  else if a = 0xF0 then 0x90 ≤ b && b < 0xC0
  else if a = 0xF4 then 0x80 ≤ b && b < 0x90
  else 0xE1 ≤ a && a < 0xF4 && isTail b

/-- How many bytes belong to a stray after its first one. -/
def strayTail (a : UInt8) : Bytes → Nat
  | [] => 0
  | [b] => if isSecond a b then 1 else 0
  | b :: c :: _ => if isSecond a b then if 0xF0 ≤ a && isTail c then 2 else 1 else 0

/-- The characters in bytes, with `none` for a stray, once some bytes have been passed over. -/
def readFrom : Nat → Bytes → List (Option Char)
  | _, [] => []
  | skipped + 1, _ :: s => readFrom skipped s
  | 0, a :: s =>
    match firstChar? (a :: s) with
    | some c => some c :: readFrom (c.utf8Size - 1) s
    | none => none :: readFrom (strayTail a s) s

def readUtf8 (bytes : Bytes) : List (Option Char) := readFrom 0 bytes

def ofUtf8? (bytes : Bytes) : Option Text := (readUtf8 bytes).mapM id

def replacement : Char := '\uFFFD'

/-- The text of bytes, in which every stray has been replaced. -/
def ofUtf8 (bytes : Bytes) : Text := (readUtf8 bytes).map (·.getD replacement)

end Text

end Relayout
