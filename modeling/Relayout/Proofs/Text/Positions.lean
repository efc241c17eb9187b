import Mathlib.Data.List.Basic
import Relayout.Proofs.Text.Utf8

/-!
# Positions in a text

A position in a text is the number of bytes before it. The text can be cut where a character begins
or where it ends, and at no other byte.
-/

namespace Relayout.Text

def byteCount (s : Text) : Nat := s.toUtf8.length

/-- What lies before and behind a position, unless it is inside a character or past the end. -/
def cutAtByte? (n : Nat) : Text → Option (Text × Text)
  | [] => if n = 0 then some ([], []) else none
  | c :: s =>
    if n = 0 then some ([], c :: s)
    else if c.utf8Size ≤ n then (cutAtByte? (n - c.utf8Size) s).map fun (a, b) => (c :: a, b)
    else none

/-- The text from one position to another. -/
def slice? (s : Text) (first last : Nat) : Option Text :=
  (cutAtByte? last s).bind fun (front, _) => (cutAtByte? first front).map (·.2)

variable {s u v w : Text} {c : Char}

@[simp] theorem byteCount_nil : byteCount [] = 0 := rfl

@[simp] theorem byteCount_append (u v : Text) :
    (u ++ v).byteCount = u.byteCount + v.byteCount := by
  simp [byteCount]

@[simp] theorem byteCount_cons (c : Char) (s : Text) :
    byteCount (c :: s) = c.utf8Size + byteCount s := by
  simp [byteCount]

theorem getElem?_toUtf8_append (u v : Text) (n : Nat) :
    (u ++ v).toUtf8[u.byteCount + n]? = v.toUtf8[n]? := by
  rw [toUtf8_append, List.getElem?_append_right (by simp [byteCount])]
  simp [byteCount]

/-! ## Cutting -/

@[simp] theorem cutAtByte?_zero (s : Text) : cutAtByte? 0 s = some ([], s) := by
  cases s <;> simp [cutAtByte?]

theorem cutAtByte?_append (u v : Text) : cutAtByte? (byteCount u) (u ++ v) = some (u, v) := by
  induction u with
  | nil => simp
  | cons c u ih =>
    have hpos : c.utf8Size + byteCount u ≠ 0 := by
      have := c.utf8Size_pos
      omega
    rw [List.cons_append, byteCount_cons, cutAtByte?, if_neg hpos, if_pos (by omega),
      Nat.add_sub_cancel_left, ih]
    rfl

theorem slice?_append (u v w : Text) :
    slice? (u ++ (v ++ w)) u.byteCount (u.byteCount + v.byteCount) = some v := by
  rw [slice?, ← List.append_assoc, ← byteCount_append, cutAtByte?_append]
  simp [cutAtByte?_append]

end Relayout.Text
